import Libseff.CallFrames
import Libseff.Declarations

namespace Libseff.FrameDescriptions

open CallFrames Declarations

inductive Reg where
  | rax
  | rdx
  | rcx
  | rbx
  | rsi
  | rdi
  | rbp
  | rsp
  | r8
  | r9
  | r10
  | r11
  | r12
  | r13
  | r14
  | r15
  | rip
  deriving DecidableEq

def registers : List Reg :=
  [.rax, .rdx, .rcx, .rbx, .rsi, .rdi, .rbp, .rsp, .r8, .r9, .r10, .r11, .r12, .r13, .r14, .r15,
    .rip]

def DW_REG (r : Reg) : Byte := BitVec.ofNat 8 (registers.idxOf r)

def DW_CFA_def_cfa_expression : Byte := 0x0F

def DW_CFA_expression : Byte := 0x10

def DW_CFA_val_offset : Byte := 0x14

def DW_OP_breg (r : Reg) : Byte := 0x70 + DW_REG r

def x64 : Target Reg where
  register n := registers[n]?
  dataAlign := -8

/-- The row after `.cfi_startproc`: nothing has been pushed behind the return
address, and the registers that a callee saves are as the caller left them. -/
def startproc : Row Reg where
  cfa := .register .rsp 8
  rules
    | .rip => .offset (-8)
    | .rsp => .valOffset 0
    | .rbx | .rbp | .r12 | .r13 | .r14 | .r15 => .same
    | _ => .undefined

def fieldNames : Fields → List String
  | .nil => []
  | .cons name _ rest => name :: fieldNames rest

def asmOffset (fields : Fields) (name : String) : ℕ :=
  (((fieldNames fields).zip ((structInit fields 0).elim [] Prod.fst)).lookup name).getD 0

def resumePointOffset : ℕ := asmOffset seffCoroutineFields "resume_point"

def fieldsOf : Ty → Fields
  | .struct _ fields => fields
  | _ => .nil

def contOffset (name : String) : ℕ := asmOffset (fieldsOf seffContT) name

/-- The directives at the start of `coroutine_prelude`, which hold until its end. -/
def coroutinePreludeDirectives : List (Directive Reg) :=
  [.escape [DW_CFA_def_cfa_expression, 2, DW_OP_breg .r13, BitVec.ofNat 8 resumePointOffset],
    .offset .rip (contOffset "ip"), .offset .rbx (contOffset "rbx"),
    .offset .rsp (contOffset "rsp"), .offset .rbp (contOffset "rbp"),
    .offset .r12 (contOffset "r12"), .offset .r13 (contOffset "r13"),
    .offset .r14 (contOffset "r14"), .offset .r15 (contOffset "r15")]

def coroutinePreludeRow : Option (Row Reg) :=
  (applyAll x64 coroutinePreludeDirectives ⟨startproc, []⟩).map Table.row

def preludeRow : Row Reg where
  cfa := .expression [.breg .r13 8]
  rules
    | .rip => .offset 32
    | .rbx => .offset 40
    | .rsp => .offset 16
    | .rbp => .offset 24
    | .r12 => .offset 48
    | .r13 => .offset 56
    | .r14 => .offset 64
    | .r15 => .offset 72
    | _ => .undefined

theorem contOffsets : [resumePointOffset, contOffset "rsp", contOffset "rbp", contOffset "ip",
    contOffset "rbx", contOffset "r12", contOffset "r13", contOffset "r14", contOffset "r15"] =
    [8, 16, 24, 32, 40, 48, 56, 64, 72] := by decide +kernel

theorem coroutinePreludeRow_eq : coroutinePreludeRow = some preludeRow := by
  have hoffsets := contOffsets
  simp only [List.cons.injEq, and_true] at hoffsets
  obtain ⟨h0, h1, h2, h3, h4, h5, h6, h7, h8⟩ := hoffsets
  rw [coroutinePreludeRow, coroutinePreludeDirectives, h0, h1, h2, h3, h4, h5, h6, h7, h8]
  apply congrArg some
  apply Row.ext
  · rfl
  · funext r
    cases r <;> rfl

end Libseff.FrameDescriptions
