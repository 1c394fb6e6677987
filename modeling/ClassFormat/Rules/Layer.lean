import ClassFormat.Version

/-!
Tables that grow with the version: each layer holds from its version on.
-/
namespace ClassFormat.Rules

variable {α : Type}

def latest? (layers : List (Version × α)) (v : Version) : Option α :=
  (layers.reverse.find? fun layer => layer.1 ≤ v).map (·.2)

def begun (layers : List (Version × α)) (v : Version) : List α :=
  (layers.filter fun layer => layer.1 ≤ v).map (·.2)

end ClassFormat.Rules
