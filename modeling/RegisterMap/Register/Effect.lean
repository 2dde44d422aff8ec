/-
How software may access a field, and what an access does to it beside
moving a value.
-/
namespace RegisterMap

/-- Software access of a field. -/
inductive SoftwareAccess where
  | rw | r | w | na
  deriving DecidableEq, Repr

namespace SoftwareAccess

def keyword : SoftwareAccess → String
  | .rw => "rw"
  | .r => "r"
  | .w => "w"
  | .na => "na"

def all : List SoftwareAccess := [.rw, .r, .w, .na]

def isReadable : SoftwareAccess → Bool
  | .rw | .r => true
  | _ => false

def isWritable : SoftwareAccess → Bool
  | .rw | .w => true
  | _ => false

end SoftwareAccess

/-- Side effect of a software read on the field. -/
inductive ReadEffect where
  /-- Cleared after the read. -/
  | rclr
  /-- Set after the read. -/
  | rset
  /-- Left to user code; read as a plain field. -/
  | ruser
  deriving DecidableEq, Repr

namespace ReadEffect

def keyword : ReadEffect → String
  | .rclr => "rclr"
  | .rset => "rset"
  | .ruser => "ruser"

def all : List ReadEffect := [.rclr, .rset, .ruser]

end ReadEffect

/-- Side effect of a software write on the field. -/
inductive WriteEffect where
  /-- Written ones set bits. -/
  | woset
  /-- Written ones clear bits. -/
  | woclr
  /-- Written ones toggle bits. -/
  | wot
  /-- Written zeros set bits. -/
  | wzs
  /-- Written zeros clear bits. -/
  | wzc
  /-- Written zeros toggle bits. -/
  | wzt
  /-- Any write clears the field. -/
  | wclr
  /-- Any write sets the field. -/
  | wset
  /-- Left to user code; written as a plain field. -/
  | wuser
  deriving DecidableEq, Repr

namespace WriteEffect

def keyword : WriteEffect → String
  | .woset => "woset"
  | .woclr => "woclr"
  | .wot => "wot"
  | .wzs => "wzs"
  | .wzc => "wzc"
  | .wzt => "wzt"
  | .wclr => "wclr"
  | .wset => "wset"
  | .wuser => "wuser"

def all : List WriteEffect :=
  [.woset, .woclr, .wot, .wzs, .wzc, .wzt, .wclr, .wset, .wuser]

end WriteEffect

end RegisterMap
