import BlockGraph.Handler
import BlockGraph.Text

/-!
# Methods

A method as it is loaded from a class file: its code, its exception table and its access flags.
The constant pool of its class is needed for the names of the classes that handlers catch.
-/

namespace BlockGraph

/-- Access flags of a method, one bit each (`MethodAccessFlags`). -/
structure AccessFlags where
  bits : Nat := 0
deriving DecidableEq, Repr

namespace AccessFlags

/-- The bits that have a meaning for methods, with their names. -/
def names : List (Nat × String) := [
  (0, "PUBLIC"), (1, "PRIVATE"), (2, "PROTECTED"), (3, "STATIC"), (4, "FINAL"),
  (5, "SYNCHRONIZED"), (6, "BRIDGE"), (7, "VARARGS"), (8, "NATIVE"), (10, "ABSTRACT"),
  (11, "STRICT"), (12, "SYNTHETIC")]

/-- The flags among the bits of a number; other bits are dropped. -/
def ofBits (bits : Nat) : AccessFlags := ⟨bits &&& 0x1dff⟩

/-- The mask holds just the bits that have a name. -/
example : (List.range 16).all (fun b => Nat.testBit 0x1dff b == names.any (·.1 == b)) = true := by
  decide

/-- Is `STATIC` set (`Method::is_static`)? -/
def isStatic (flags : AccessFlags) : Bool := flags.bits.testBit 3

/-- Is `SYNCHRONIZED` set (`Method::is_synchronized`)? -/
def isSynchronized (flags : AccessFlags) : Bool := flags.bits.testBit 5

/-- The flags of a static method. -/
def ofStatic : AccessFlags := ofBits 0x0008

/-- The flags together with `SYNCHRONIZED`. -/
def withSynchronized (flags : AccessFlags) : AccessFlags := ⟨flags.bits ||| 0x0020⟩

def text (flags : AccessFlags) : String := Text.flagNames names flags.bits

end AccessFlags

/-- A method whose graph is to be built. -/
structure Method where
  name : String
  access : AccessFlags := {}
  code : Array UInt8
  maxLocals : Nat := 0
  maxStack : Nat := 0
  /-- The exception table, in class file order; entry blocks are not known yet. -/
  handlers : List Handler := []
deriving DecidableEq, Repr

/-- Names of the classes at some indices of a constant pool. -/
structure ConstantPool where
  classes : List (Nat × String) := []
deriving DecidableEq, Repr

namespace ConstantPool

/-- The name of the class at an index (`ConstantPool::class_name`). -/
def nameOf? (pool : ConstantPool) (index : Nat) : Option String := pool.classes.lookup index

/-- What a handler catches, in words (`GraphBuilder::catch_type_name`). -/
def caughtName (pool : ConstantPool) (catchType : Nat) : String :=
  if catchType = 0 then "any" else (pool.nameOf? catchType).getD "<unresolved class>"

end ConstantPool
end BlockGraph
