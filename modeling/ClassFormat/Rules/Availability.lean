import ClassFormat.Constant.Kind
import ClassFormat.Constant.ReferenceKind
import ClassFormat.Rules.Layer

/-!
From which version on constants may appear, and which constants method handles may refer to.
-/
namespace ClassFormat.Rules

def minimumVersion : ConstantKind → Version
  | .methodHandle | .methodType | .invokeDynamic => .jdk 7
  | .moduleRef | .packageRef => .jdk 9
  | .dynamic => .jdk 11
  | _ => .origin

def referentLayers : ReferenceKind → List (Version × List ConstantKind)
  | .getField | .getStatic | .putField | .putStatic => [(.origin, [.fieldRef])]
  | .invokeVirtual | .newInvokeSpecial => [(.origin, [.methodRef])]
  | .invokeStatic | .invokeSpecial =>
    [(.origin, [.methodRef]), (.jdk 8, [.methodRef, .interfaceMethodRef])]
  | .invokeInterface => [(.origin, [.interfaceMethodRef])]

def permittedReferents (kind : ReferenceKind) (v : Version) : List ConstantKind :=
  (latest? (referentLayers kind) v).getD []

end ClassFormat.Rules
