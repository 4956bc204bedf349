/-!
# The instruction set of the register machine

Registers and labels are texts. Virtual registers `$r1`, `$r2`, ... belong to one
activation of a routine. Registers that start with `@` are shared: `@fun`, `@arg`
and `@res` pass the closure, its argument and the result of a call, and `@G_x`
holds the value of the definition `x`.
-/

namespace Lowering

structure Reg where
  text : String
  deriving DecidableEq, Repr

namespace Reg

/-- The virtual register with number `n`. -/
def virtual (n : Int) : Reg := ⟨"$r" ++ toString n⟩

/-- The register that holds the value of a definition. -/
def global (name : String) : Reg := ⟨"@G_" ++ name⟩

/-- The closure that is called. -/
def callee : Reg := ⟨"@fun"⟩

/-- The argument of a call. -/
def argument : Reg := ⟨"@arg"⟩

/-- The result of a call. -/
def result : Reg := ⟨"@res"⟩

def isVirtual (r : Reg) : Bool := "$r".toList.isPrefixOf r.text.toList

def isGlobal (r : Reg) : Bool := "@G_".toList.isPrefixOf r.text.toList

end Reg

structure Label where
  text : String
  deriving DecidableEq, Repr

/-- Instructions. A heap object is a row of words, addressed by its slots. -/
inductive Instr where
  /-- The place that jumps to `label` reach. -/
  | mark (label : Label)
  | movReg (dst src : Reg)
  | movInt (dst : Reg) (value : Int)
  /-- Put the address of a mark into `dst`. -/
  | movLabel (dst : Reg) (label : Label)
  /-- Put a reference to a new object of `slots` words into `dst`. -/
  | alloc (dst : Reg) (slots : Int)
  /-- Read slot `index` of the object in `src`. -/
  | load (dst src : Reg) (index : Int)
  /-- Write slot `index` of the object in `dst`. -/
  | store (dst : Reg) (index : Int) (src : Reg)
  | print (src : Reg)
  | printChar (src : Reg)
  | jump (label : Label)
  /-- Jump if the two registers hold the same word. -/
  | jumpEq (left right : Reg) (label : Label)
  /-- Call the routine whose address is in `src`. -/
  | icall (src : Reg)
  | ret
  deriving DecidableEq, Repr

abbrev Code := List Instr

namespace Instr

/-- An operation applied to its operands, as listings show it. -/
def form (operation : String) (operands : List String) : String :=
  operation ++ "(" ++ ", ".intercalate operands ++ ")"

/-- The text of an instruction. -/
def text : Instr → String
  | .mark label => label.text ++ ":"
  | .movReg dst src => form "mov_reg" [dst.text, src.text]
  | .movInt dst value => form "mov_int" [dst.text, toString value]
  | .movLabel dst label => form "mov_label" [dst.text, label.text]
  | .alloc dst slots => form "alloc" [dst.text, toString slots]
  | .load dst src index => form "load" [dst.text, src.text, toString index]
  | .store dst index src => form "store" [dst.text, toString index, src.text]
  | .print src => form "print" [src.text]
  | .printChar src => form "print_char" [src.text]
  | .jump label => form "jump" [label.text]
  | .jumpEq left right label => form "jump_eq" [left.text, right.text, label.text]
  | .icall src => form "icall" [src.text]
  | .ret => form "return" []

end Instr
end Lowering
