import Libseff.FrameDescriptions
import Libseff.MorestackFrames

namespace Libseff.MorestackInstructions

open CallFrames ByteMemory FrameDescriptions MorestackFrames
open MorestackMachine hiding Word

/-- The instructions of `__morestack`, with the source before the destination. -/
inductive Instr where
  | push (r : Reg)
  | pop (r : Reg)
  | mov (src dst : Reg)
  | load (offset : ℤ) (base dst : Reg)
  | lea (offset : ℤ) (base dst : Reg)
  | loadSystemStack (dst : Reg)
  | storeStackTop (src : Reg)
  | sub (src dst : Reg)
  | inc (dst : Reg)
  | callAllocateFrame
  | callBody
  | callReleaseFrame
  | ret

def get (m : Machine) : Reg → Word
  | .rax => m.rax
  | .rdx => m.rdx
  | .rcx => m.rcx
  | .rbx => m.rbx
  | .rsi => m.rsi
  | .rdi => m.rdi
  | .rbp => m.rbp
  | .rsp => m.rsp
  | .r8 => m.r8
  | .r9 => m.r9
  | .r10 => m.r10
  | .r11 => m.r11
  | .r12 => m.r12
  | .r13 => m.r13
  | .r14 => m.r14
  | .r15 => m.r15
  | .rip => m.rip

def set (m : Machine) (w : Word) : Reg → Machine
  | .rax => { m with rax := w }
  | .rdx => { m with rdx := w }
  | .rcx => { m with rcx := w }
  | .rbx => { m with rbx := w }
  | .rsi => { m with rsi := w }
  | .rdi => { m with rdi := w }
  | .rbp => { m with rbp := w }
  | .rsp => { m with rsp := w }
  | .r8 => { m with r8 := w }
  | .r9 => { m with r9 := w }
  | .r10 => { m with r10 := w }
  | .r11 => { m with r11 := w }
  | .r12 => { m with r12 := w }
  | .r13 => { m with r13 := w }
  | .r14 => { m with r14 := w }
  | .r15 => { m with r15 := w }
  | .rip => { m with rip := w }

def address (m : Machine) (base : Reg) : ℤ → Word
  | .ofNat 0 => get m base
  | .ofNat (n + 1) => get m base + BitVec.ofNat 64 (n + 1)
  | .negSucc n => get m base - BitVec.ofNat 64 (n + 1)

section Run

variable (code : Code) (f : Callees)

/-- A call goes on behind the call when the function has returned. -/
def exec : Instr → Machine → Option Machine
  | .push r, m => some (push m (get m r))
  | .pop r, m => some (set { m with rsp := m.rsp + 8 } (ByteMemory.load m.memory m.rsp) r)
  | .mov src dst, m => some (set m (get m src) dst)
  | .load offset base dst, m => some (set m (ByteMemory.load m.memory (address m base offset)) dst)
  | .lea offset base dst, m => some (set m (address m base offset) dst)
  | .loadSystemStack dst, m => some (set m m.system_stack dst)
  | .storeStackTop src, m => some { m with stack_top := get m src }
  | .sub src dst, m => some (set m (get m dst - get m src) dst)
  | .inc dst, m => some (set m (get m dst + 1) dst)
  | .callAllocateFrame, m => callAllocateFrame code f m
  | .callBody, m => some (runBody f (enterBody code m))
  | .callReleaseFrame, m => callReleaseFrame code f m
  | .ret, m => some (ret m)

/-- The machine before each instruction, and behind the last one. -/
def trace : List Instr → Machine → Option (List Machine × Machine)
  | [], m => some ([], m)
  | i :: is, m => do
    let next ← exec code f i m
    let (ms, last) ← trace is next
    some (m :: ms, last)

abbrev Block := List (Directive Reg) × List Instr

def places : List Block → Table Reg → Machine → Option (List (Row Reg × Machine) × Machine)
  | [], _, m => some ([], m)
  | (directives, is) :: blocks, t, m => do
    let t ← applyAll x64 directives t
    let (ms, next) ← trace code f is m
    let (ps, last) ← places blocks t next
    some (ms.map (Prod.mk t.row) ++ ps, last)

end Run

section Traces

variable {code : Code} {f : Callees} {m : Machine}

theorem trace_cons (i : Instr) (is : List Instr) : trace code f (i :: is) m =
    (exec code f i m).bind fun next => (trace code f is next).map fun p => (m :: p.1, p.2) := by
  rw [trace]
  simp only [Option.bind_eq_bind, Option.map_eq_bind, Function.comp_def]

theorem trace_cons_some {i : Instr} {is : List Instr} {p : List Machine × Machine}
    (ht : trace code f (i :: is) m = some p) : ∃ next q, exec code f i m = some next ∧
      trace code f is next = some q ∧ p = (m :: q.1, q.2) := by
  rw [trace_cons] at ht
  obtain ⟨next, hnext, ht⟩ := Option.bind_eq_some_iff.mp ht
  obtain ⟨q, hq, rfl⟩ := Option.map_eq_some_iff.mp ht
  exact ⟨next, q, hnext, hq, rfl⟩

theorem trace_invariant {I : Machine → Prop} {is : List Instr}
    (hstep : ∀ i ∈ is, ∀ v v', I v → exec code f i v = some v' → I v') (h : I m)
    {p : List Machine × Machine} (ht : trace code f is m = some p) : (∀ v ∈ p.1, I v) ∧ I p.2 := by
  induction is generalizing m p with
  | nil =>
    cases ht
    exact ⟨fun v hv => absurd hv List.not_mem_nil, h⟩
  | cons i is ih =>
    obtain ⟨next, q, hnext, hq, rfl⟩ := trace_cons_some ht
    obtain ⟨hall, hlast⟩ := ih (fun j hj => hstep j (List.mem_cons_of_mem i hj))
      (hstep i List.mem_cons_self m next h hnext) hq
    exact ⟨List.forall_mem_cons.mpr ⟨h, hall⟩, hlast⟩

theorem trace_length {is : List Instr} {p : List Machine × Machine}
    (ht : trace code f is m = some p) : p.1.length = is.length := by
  induction is generalizing m p with
  | nil =>
    cases ht
    rfl
  | cons i is ih =>
    obtain ⟨next, q, -, hq, rfl⟩ := trace_cons_some ht
    exact congrArg (· + 1) (ih hq)

theorem trace_append {is js : List Instr} {p : List Machine × Machine}
    (ht : trace code f (is ++ js) m = some p) :
    ∃ q r, trace code f is m = some q ∧ trace code f js q.2 = some r ∧ p.1 = q.1 ++ r.1 ∧
      p.2 = r.2 := by
  induction is generalizing m p with
  | nil => exact ⟨([], m), p, rfl, ht, rfl, rfl⟩
  | cons i is ih =>
    obtain ⟨next, p', hnext, hp, rfl⟩ := trace_cons_some ht
    obtain ⟨q, r, hq, hr, hfst, hsnd⟩ := ih hp
    refine ⟨(m :: q.1, q.2), r, ?_, hr, congrArg (m :: ·) hfst, hsnd⟩
    rw [trace_cons, hnext, Option.bind_some, hq]
    rfl

end Traces

def fromRbp (r : Reg) (offset : Byte) : Directive Reg :=
  .escape [DW_CFA_expression, DW_REG r, 2, DW_OP_breg .rbp, offset]

def allocateInstrs : List Instr :=
  [.lea (-8) .rbp .rdi, .lea 24 .rbx .rsi, .mov .r11 .rdx, .callAllocateFrame,
    .load (-8) .rbp .r10, .mov .rax .rsp, .sub .r10 .rax, .storeStackTop .rax,
    .load (-16) .rbp .rax, .load (-24) .rbp .rdi, .load (-32) .rbp .rsi, .load (-40) .rbp .rdx,
    .load (-48) .rbp .rcx, .load (-56) .rbp .r8, .load (-64) .rbp .r9, .load 0 .rbp .rbp]

def bodyInstrs : List Instr :=
  [.load 8 .rbx .r10, .inc .r10, .callBody, .push .rax, .push .rdx, .callReleaseFrame,
    .storeStackTop .rax, .pop .rdx, .pop .rax, .mov .rbx .rsp, .pop .rbx, .ret]

def morestackBlocks : List Block :=
  [([.defCfa .rsp 16], [.push .rbx]),
    ([.adjustCfaOffset 8, .offset .rbx (-24)], [.mov .rsp .rbx]),
    ([.defCfaRegister .rbx, .offset .rip (-8), .escape [DW_CFA_val_offset, DW_REG .rsp, 1]],
      [.loadSystemStack .rsp]),
    ([.rememberState], [.push .rbp, .push .rbp, .mov .rsp .rbp, .push .r10, .push .rax,
      .push .rdi, .push .rsi, .push .rdx, .push .rcx, .push .r8, .push .r9]),
    ([fromRbp .rbp 0x00, fromRbp .r10 0x08, fromRbp .rax 0x10, fromRbp .rdi 0x18,
      fromRbp .rsi 0x20, fromRbp .rdx 0x28, fromRbp .rcx 0x30, fromRbp .r8 0x38,
      fromRbp .r9 0x40], allocateInstrs),
    ([.restoreState], bodyInstrs)]

def enteredRow : Row Reg := { startproc with cfa := .register .rsp 16 }

def pushedRow : Row Reg where
  cfa := .register .rsp 24
  rules
    | .rip => .offset (-8)
    | .rsp => .valOffset 0
    | .rbx => .offset (-24)
    | .rbp | .r12 | .r13 | .r14 | .r15 => .same
    | _ => .undefined

def framedRow : Row Reg where
  cfa := .register .rbx 24
  rules
    | .rip => .offset (-8)
    | .rsp => .valOffset (-8)
    | .rbx => .offset (-24)
    | .rbp | .r12 | .r13 | .r14 | .r15 => .same
    | _ => .undefined

/-- The row behind the pushes on the system stack. The last byte is negative. -/
def savedRow : Row Reg where
  cfa := .register .rbx 24
  rules
    | .rbp => .expression [.breg .rbp 0]
    | .r10 => .expression [.breg .rbp 8]
    | .rax => .expression [.breg .rbp 16]
    | .rdi => .expression [.breg .rbp 24]
    | .rsi => .expression [.breg .rbp 32]
    | .rdx => .expression [.breg .rbp 40]
    | .rcx => .expression [.breg .rbp 48]
    | .r8 => .expression [.breg .rbp 56]
    | .r9 => .expression [.breg .rbp (-64)]
    | r => framedRow.rules r

theorem fromRbp_apply (r : Reg) {b : Byte} {n : ℤ} (hb : sleb [b] = some (n, []))
    (t : Table Reg) : (fromRbp r b).apply x64 t =
      some { t with row := t.row.setRule r (.expression [.breg .rbp n]) } := by
  have hblock : decodeBlock x64 [2, DW_OP_breg .rbp, b] = some [.breg .rbp n] := by
    change (decodeExpression x64 2 [DW_OP_breg .rbp, b]) = _
    change ((sleb [b]).map fun p => (CallFrames.Op.breg Reg.rbp p.1, p.2)).bind _ = _
    rw [hb]
    rfl
  have hnumber : uleb (DW_REG r :: [2, DW_OP_breg .rbp, b]) =
      some (registers.idxOf r, [2, DW_OP_breg .rbp, b]) := by cases r <;> rfl
  have hregister : x64.register (registers.idxOf r) = some r := by cases r <;> rfl
  have hescape : t.row.escape x64 [DW_CFA_expression, DW_REG r, 2, DW_OP_breg .rbp, b] =
      (uleb (DW_REG r :: [2, DW_OP_breg .rbp, b])).bind fun p => (x64.register p.1).bind fun r =>
        (decodeBlock x64 p.2).map fun e => t.row.setRule r (.expression e) := rfl
  rw [fromRbp, Directive.apply, hescape, hnumber, Option.bind_some, hregister, Option.bind_some,
    hblock]
  rfl

theorem applyAll_pushed : applyAll x64 [.adjustCfaOffset 8, .offset .rbx (-24)]
    ⟨enteredRow, []⟩ = some ⟨pushedRow, []⟩ := by
  apply congrArg fun row => some (Table.mk row [])
  apply Row.ext
  · rfl
  · funext r
    cases r <;> rfl

theorem applyAll_framed : applyAll x64 [.defCfaRegister .rbx, .offset .rip (-8),
    .escape [DW_CFA_val_offset, DW_REG .rsp, 1]] ⟨pushedRow, []⟩ = some ⟨framedRow, []⟩ := by
  apply congrArg fun row => some (Table.mk row [])
  apply Row.ext
  · rfl
  · funext r
    cases r <;> rfl

theorem applyAll_saved : applyAll x64 [fromRbp .rbp 0x00, fromRbp .r10 0x08, fromRbp .rax 0x10,
    fromRbp .rdi 0x18, fromRbp .rsi 0x20, fromRbp .rdx 0x28, fromRbp .rcx 0x30, fromRbp .r8 0x38,
    fromRbp .r9 0x40] ⟨framedRow, [framedRow]⟩ = some ⟨savedRow, [framedRow]⟩ := by
  simp only [applyAll, Option.bind_some,
    fromRbp_apply .rbp (show sleb [0x00] = some (0, []) from rfl),
    fromRbp_apply .r10 (show sleb [0x08] = some (8, []) from rfl),
    fromRbp_apply .rax (show sleb [0x10] = some (16, []) from rfl),
    fromRbp_apply .rdi (show sleb [0x18] = some (24, []) from rfl),
    fromRbp_apply .rsi (show sleb [0x20] = some (32, []) from rfl),
    fromRbp_apply .rdx (show sleb [0x28] = some (40, []) from rfl),
    fromRbp_apply .rcx (show sleb [0x30] = some (48, []) from rfl),
    fromRbp_apply .r8 (show sleb [0x38] = some (56, []) from rfl),
    fromRbp_apply .r9 (show sleb [0x40] = some (-64, []) from rfl)]
  apply congrArg fun row => some (Table.mk row [framedRow])
  apply Row.ext
  · rfl
  · funext r
    cases r <;> rfl

def pushedWords (m : Machine) : List Word :=
  [m.rbp, m.rbp, m.r10, m.rax, m.rdi, m.rsi, m.rdx, m.rcx, m.r8, m.r9]

def saving (m : Machine) (rbp : Word) (ws : List Word) : Machine :=
  { m with
    rbx := m.rsp - 8, rbp := rbp, rsp := ws.foldl (fun sp _ => sp - 8) m.system_stack,
    memory := pushAll (store m.memory (m.rsp - 8) m.rbx) m.system_stack ws }

def savePlaces (m : Machine) : List (Row Reg × Machine) :=
  [(enteredRow, m), (pushedRow, push m m.rbx),
    (framedRow, { push m m.rbx with rbx := m.rsp - 8 }), (framedRow, saving m m.rbp []),
    (framedRow, saving m m.rbp [m.rbp]), (framedRow, saving m m.rbp [m.rbp, m.rbp])] ++
    (List.range 8).map fun k =>
      (framedRow, saving m (m.system_stack - 8 - 8) ((pushedWords m).take (k + 2)))

section Places

variable (code : Code) (f : Callees) (m : Machine)

theorem places_cons {directives : List (Directive Reg)} {is : List Instr} {t t' : Table Reg}
    (ht : applyAll x64 directives t = some t') (blocks : List Block) :
    places code f ((directives, is) :: blocks) t m =
      (trace code f is m).bind fun p => (places code f blocks t' p.2).map fun q =>
        (p.1.map (Prod.mk t'.row) ++ q.1, q.2) := by
  rw [places, ht]
  simp only [Option.bind_eq_bind, Option.bind_some, Option.map_eq_bind, Function.comp_def]

theorem places_eq : places code f morestackBlocks ⟨startproc, []⟩ m =
    (trace code f allocateInstrs (saving m (m.system_stack - 8 - 8) (pushedWords m))).bind
      fun p => (trace code f bodyInstrs p.2).map fun q =>
        (savePlaces m ++ p.1.map (Prod.mk savedRow) ++ q.1.map (Prod.mk framedRow), q.2) := by
  have hentered : applyAll x64 [.defCfa .rsp 16] ⟨startproc, []⟩ = some ⟨enteredRow, []⟩ := rfl
  have hremember : applyAll x64 [.rememberState] ⟨framedRow, []⟩ =
    some ⟨framedRow, [framedRow]⟩ := rfl
  have hrestore : applyAll x64 [.restoreState] ⟨savedRow, [framedRow]⟩ =
    some ⟨framedRow, []⟩ := rfl
  have hsave : trace code f [.push .rbp, .push .rbp, .mov .rsp .rbp, .push .r10, .push .rax,
      .push .rdi, .push .rsi, .push .rdx, .push .rcx, .push .r8, .push .r9] (saving m m.rbp []) =
      some (((savePlaces m).drop 3).map Prod.snd,
        saving m (m.system_stack - 8 - 8) (pushedWords m)) := rfl
  rw [morestackBlocks, places_cons code f m hentered]
  change ((places code f _ _ (push m m.rbx)).map _) = _
  rw [places_cons code f _ applyAll_pushed]
  change (((places code f _ _ { push m m.rbx with rbx := m.rsp - 8 }).map _).map _) = _
  rw [places_cons code f _ applyAll_framed]
  change ((((places code f _ _ (saving m m.rbp [])).map _).map _).map _) = _
  rw [places_cons code f _ hremember, hsave, Option.bind_some, places_cons code f _ applyAll_saved]
  simp only [Option.map_map, Option.map_bind, Function.comp_def]
  refine congrArg (Option.bind _) (funext fun p => ?_)
  rw [places_cons code f _ hrestore]
  simp only [places, Option.map_some, Option.map_bind, Function.comp_def, List.append_nil]
  rw [Option.map_eq_bind]
  refine congrArg (Option.bind _) (funext fun q => congrArg some (Prod.ext (Eq.symm ?_) rfl))
  exact List.append_assoc (savePlaces m) _ _

def after (is : List Instr) (m : Machine) : Option Machine := (trace code f is m).map Prod.snd

theorem snd_of_after {is : List Instr} {last : Machine} (h : after code f is m = some last)
    {p : List Machine × Machine} (ht : trace code f is m = some p) : p.2 = last := by
  rw [after, ht] at h
  exact Option.some.inj h

theorem after_nil : after code f [] m = some m := rfl

theorem after_cons (i : Instr) (is : List Instr) :
    after code f (i :: is) m = (exec code f i m).bind (after code f is) := by
  rw [after, trace_cons, Option.map_bind]
  simp only [Function.comp_def, Option.map_map]
  rfl

theorem after_append (is js : List Instr) :
    after code f (is ++ js) m = (after code f is m).bind (after code f js) := by
  induction is generalizing m with
  | nil => rfl
  | cons i is ih =>
    rw [List.cons_append, after_cons, after_cons, Option.bind_assoc]
    exact congrArg _ (funext ih)

theorem after_save : after code f (allocateInstrs.take 3)
    (saving m (m.system_stack - 8 - 8) (pushedWords m)) = some (saveRegisters m) := by
  simp only [allocateInstrs, List.take_succ_cons, List.take_zero, after_cons, after_nil, exec,
    Option.bind_some]
  rfl

theorem after_allocate :
    after code f allocateInstrs (saving m (m.system_stack - 8 - 8) (pushedWords m)) =
      (callAllocateFrame code f (saveRegisters m)).bind (after code f (allocateInstrs.drop 4)) := by
  rw [← List.take_append_drop 3 allocateInstrs, after_append, after_save, Option.bind_some]
  exact after_cons code f _ _ _

theorem after_switch : (after code f (allocateInstrs.drop 4) m).bind
    (after code f (bodyInstrs.take 2)) = some (switchStack m) := by
  rw [← after_append]
  rfl

theorem after_body : (after code f (allocateInstrs.drop 4) m).bind (after code f bodyInstrs) =
    leaveSegment code f (runBody f (enterBody code (switchStack m))) := by
  rw [← List.take_append_drop 2 bodyInstrs, ← after_append, ← List.append_assoc, after_append,
    after_append, after_switch, Option.bind_some]
  simp only [bodyInstrs, List.drop_succ_cons, List.drop_zero, after_cons, exec, Option.bind_some,
    leaveSegment, Option.bind_eq_bind]
  rfl

/-- Instruction by instruction the code does what the model does. -/
theorem places_morestack :
    ((places code f morestackBlocks ⟨startproc, []⟩ m).map fun p => MorestackMachine.ret p.2) =
      (morestack code f m).map Outcome.caller := by
  have hafter : ((places code f morestackBlocks ⟨startproc, []⟩ m).map Prod.snd) =
      (after code f allocateInstrs (saving m (m.system_stack - 8 - 8) (pushedWords m))).bind
        (after code f bodyInstrs) := by
    rw [places_eq]
    simp only [after, Option.map_bind, Option.bind_map, Option.map_map, Function.comp_def]
  have hcomp : ∀ o : Option (List (Row Reg × Machine) × Machine),
      o.map (fun p => MorestackMachine.ret p.2) = (o.map Prod.snd).map MorestackMachine.ret := by
    intro o
    rw [Option.map_map]
    rfl
  rw [hcomp, hafter, after_allocate, Option.bind_assoc, funext (after_body code f), morestack]
  simp only [Option.bind_eq_bind, Option.map_eq_bind, Function.comp_def, Option.bind_assoc,
    Option.bind_some]

end Places

end Libseff.MorestackInstructions
