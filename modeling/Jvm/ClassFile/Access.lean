/-! # Access flags

The flag words of classes, fields and methods. All sixteen bits are kept, whether or not they have a
meaning. -/

namespace Jvm.ClassFile

/-- A flag word. -/
structure Access where
  bits : UInt16
deriving DecidableEq, Inhabited, Repr

namespace Access

/-- Whether one of the flags in `mask` is set. -/
def has (a : Access) (mask : UInt16) : Bool := a.bits &&& mask != 0

/-- Declared public. -/
def isPublic (a : Access) : Bool := a.has 0x0001

/-- Declared private. -/
def isPrivate (a : Access) : Bool := a.has 0x0002

/-- Declared static. -/
def isStatic (a : Access) : Bool := a.has 0x0008

/-- Not to be extended or overridden. -/
def isFinal (a : Access) : Bool := a.has 0x0010

/-- For a class: calls of superclass methods are selected anew. -/
def isSuper (a : Access) : Bool := a.has 0x0020

/-- For a method: a call holds a monitor. -/
def isSynchronized (a : Access) : Bool := a.has 0x0020

/-- For a method: implemented outside the class file. -/
def isNative (a : Access) : Bool := a.has 0x0100

/-- For a class: is an interface. -/
def isInterface (a : Access) : Bool := a.has 0x0200

/-- Without an implementation of its own. -/
def isAbstract (a : Access) : Bool := a.has 0x0400

/-- The word with the flags of `mask` set. -/
def with_ (a : Access) (mask : UInt16) : Access := ⟨a.bits ||| mask⟩

end Access

end Jvm.ClassFile
