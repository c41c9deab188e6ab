import Mathlib.Data.Int.Notation
import Mathlib.Data.Nat.Notation
import Mathlib.Logic.Function.Basic

namespace Libseff.CallFrames

abbrev Word := BitVec 64

abbrev Byte := BitVec 8

/-- `none` is a register whose value is lost. -/
abbrev Registers (ρ : Type*) := ρ → Option Word

structure Target (ρ : Type*) where
  register : ℕ → Option ρ
  dataAlign : ℤ

/-- Seven bits a byte, the lowest first; the last byte is below 128. -/
def uleb : List Byte → Option (ℕ × List Byte)
  | [] => none
  | b :: bs =>
    if b.toNat < 128 then some (b.toNat, bs)
    else (uleb bs).map fun p => (b.toNat - 128 + 128 * p.1, p.2)

def sleb : List Byte → Option (ℤ × List Byte)
  | [] => none
  | b :: bs =>
    if b.toNat < 64 then some (b.toNat, bs)
    else if b.toNat < 128 then some (b.toNat - 128, bs)
    else (sleb bs).map fun p => (b.toNat - 128 + 128 * p.1, p.2)

inductive Op (ρ : Type*) where
  | breg (r : ρ) (offset : ℤ)
  | deref
  | plusUconst (n : ℕ)

inductive Rule (ρ : Type*) where
  | undefined
  | same
  | offset (n : ℤ)
  | valOffset (n : ℤ)
  | expression (e : List (Op ρ))

inductive CfaRule (ρ : Type*) where
  | register (r : ρ) (offset : ℤ)
  | expression (e : List (Op ρ))

@[ext]
structure Row (ρ : Type*) where
  cfa : CfaRule ρ
  rules : ρ → Rule ρ

inductive Directive (ρ : Type*) where
  | defCfa (r : ρ) (offset : ℤ)
  | defCfaRegister (r : ρ)
  | adjustCfaOffset (n : ℤ)
  | offset (r : ρ) (n : ℤ)
  | rememberState
  | restoreState
  | escape (bytes : List Byte)

structure Table (ρ : Type*) where
  row : Row ρ
  remembered : List (Row ρ)

variable {ρ : Type*}

section Decode

variable (target : Target ρ)

def decodeOp : List Byte → Option (Op ρ × List Byte)
  | [] => none
  | b :: bs =>
    if b = 0x06 then some (.deref, bs)
    else if b = 0x23 then (uleb bs).map fun p => (.plusUconst p.1, p.2)
    else if 0x70 ≤ b ∧ b ≤ 0x8f then
      (target.register (b.toNat - 0x70)).bind fun r => (sleb bs).map fun p => (.breg r p.1, p.2)
    else none

/-- Every operation has at least one byte. -/
def decodeExpression : ℕ → List Byte → Option (List (Op ρ))
  | _, [] => some []
  | 0, _ :: _ => none
  | n + 1, b :: bs =>
    (decodeOp target (b :: bs)).bind fun p => (decodeExpression n p.2).map fun e => p.1 :: e

def decodeBlock (bs : List Byte) : Option (List (Op ρ)) :=
  (uleb bs).bind fun p => if p.1 = p.2.length then decodeExpression target p.1 p.2 else none

end Decode

section Evaluate

variable (read : Word → Word) (regs : Registers ρ)

def Op.apply : Op ρ → List Word → Option (List Word)
  | .breg r offset, stack => (regs r).map fun w => (w + BitVec.ofInt 64 offset) :: stack
  | .deref, w :: stack => some (read w :: stack)
  | .plusUconst n, w :: stack => some ((w + BitVec.ofNat 64 n) :: stack)
  | _, [] => none

def evaluate : List (Op ρ) → List Word → Option Word
  | [], stack => stack.head?
  | o :: e, stack => (o.apply read regs stack).bind fun stack => evaluate e stack

def CfaRule.value : CfaRule ρ → Option Word
  | .register r offset => (regs r).map fun w => w + BitVec.ofInt 64 offset
  | .expression e => evaluate read regs e []

def Rule.value (cfa : Word) (r : ρ) : Rule ρ → Option Word
  | .undefined => none
  | .same => regs r
  | .offset n => some (read (cfa + BitVec.ofInt 64 n))
  | .valOffset n => some (cfa + BitVec.ofInt 64 n)
  | .expression e => (evaluate read regs e [cfa]).map read

def Row.unwind (row : Row ρ) : Option (Registers ρ) :=
  (row.cfa.value read regs).map fun cfa r => (row.rules r).value read regs cfa r

end Evaluate

theorem Row.unwind_eq {read : Word → Word} {regs regs' : Registers ρ} {row : Row ρ} {cfa : Word}
    (hcfa : row.cfa.value read regs = some cfa)
    (hrules : ∀ r, (row.rules r).value read regs cfa r = regs' r) :
    row.unwind read regs = some regs' := by
  rw [Row.unwind, hcfa, Option.map_some]
  apply congrArg some
  funext r
  exact hrules r

section Directives

variable [DecidableEq ρ]

def Row.setRule (row : Row ρ) (r : ρ) (rule : Rule ρ) : Row ρ :=
  { row with rules := Function.update row.rules r rule }

/-- The instructions `DW_CFA_def_cfa_expression`, `DW_CFA_expression` and
`DW_CFA_val_offset` by their bytes. -/
def Row.escape (target : Target ρ) (row : Row ρ) : List Byte → Option (Row ρ)
  | [] => none
  | b :: bs =>
    if b = 0x0F then (decodeBlock target bs).map fun e => { row with cfa := .expression e }
    else if b = 0x10 then
      (uleb bs).bind fun p => (target.register p.1).bind fun r =>
        (decodeBlock target p.2).map fun e => row.setRule r (.expression e)
    else if b = 0x14 then
      (uleb bs).bind fun p => (target.register p.1).bind fun r =>
        (uleb p.2).bind fun q =>
          if q.2 = [] then some (row.setRule r (.valOffset (q.1 * target.dataAlign))) else none
    else none

def Directive.apply (target : Target ρ) : Directive ρ → Table ρ → Option (Table ρ)
  | .defCfa r n, t => some { t with row := { t.row with cfa := .register r n } }
  | .defCfaRegister r, t =>
    match t.row.cfa with
    | .register _ n => some { t with row := { t.row with cfa := .register r n } }
    | .expression _ => none
  | .adjustCfaOffset k, t =>
    match t.row.cfa with
    | .register r n => some { t with row := { t.row with cfa := .register r (n + k) } }
    | .expression _ => none
  | .offset r n, t => some { t with row := t.row.setRule r (.offset n) }
  | .rememberState, t => some { t with remembered := t.row :: t.remembered }
  | .restoreState, t =>
    match t.remembered with
    | row :: rows => some ⟨row, rows⟩
    | [] => none
  | .escape bytes, t => (t.row.escape target bytes).map fun row => { t with row := row }

def applyAll (target : Target ρ) : List (Directive ρ) → Table ρ → Option (Table ρ)
  | [], t => some t
  | d :: ds, t => (d.apply target t).bind fun t => applyAll target ds t

end Directives

section Walks

variable (find : Registers ρ → Option (Row ρ)) (read : Word → Word)

def backtrace : ℕ → Registers ρ → List (Registers ρ)
  | 0, _ => []
  | n + 1, regs =>
    regs :: (((find regs).bind fun row => row.unwind read regs).elim [] fun regs =>
      backtrace n regs)

inductive Walk : Registers ρ → List (Registers ρ) → Registers ρ → Prop
  | refl (regs : Registers ρ) : Walk regs [] regs
  | step {regs regs₁ regs' : Registers ρ} {l : List (Registers ρ)} {row : Row ρ}
      (hfind : find regs = some row) (hunwind : row.unwind read regs = some regs₁)
      (h : Walk regs₁ l regs') : Walk regs (regs :: l) regs'

variable {find read}

theorem Walk.backtrace {regs regs' : Registers ρ} {l : List (Registers ρ)}
    (h : Walk find read regs l regs') (n : ℕ) :
    backtrace find read (l.length + n) regs = l ++ backtrace find read n regs' := by
  induction h with
  | refl regs => rw [List.length_nil, Nat.zero_add, List.nil_append]
  | @step regs regs₁ regs' l row hfind hunwind h ih =>
    rw [List.length_cons, Nat.add_right_comm, CallFrames.backtrace, hfind, Option.bind_some,
      hunwind, Option.elim_some, ih, List.cons_append]

end Walks

end Libseff.CallFrames
