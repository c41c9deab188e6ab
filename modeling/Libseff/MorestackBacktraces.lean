import Libseff.MorestackCalls
import Libseff.MorestackInstructions
import Mathlib.Data.List.Forall2

namespace Libseff.MorestackBacktraces

open CallFrames ByteMemory FrameDescriptions MorestackFrames MorestackCalls MorestackInstructions
open MorestackMachine hiding Word

def known (u : Machine) : Registers Reg := fun r => some (get u r)

def preserved (u : Machine) : Registers Reg
  | .rip => some u.rip
  | .rsp => some u.rsp
  | .rbx => some u.rbx
  | .rbp => some u.rbp
  | .r12 => some u.r12
  | .r13 => some u.r13
  | .r14 => some u.r14
  | .r15 => some u.r15
  | _ => none

inductive Recovery where
  | caller
  | low
  | own
  | saved
  | lost

/-- The registers that unwinding finds with the machine `u`, where `__morestack` was
entered with `m` and `caller` is the machine when the call has returned. -/
def found (m caller u : Machine) : Recovery → Registers Reg
  | .caller => preserved caller
  | .low => preserved { caller with rsp := caller.rsp - 8 }
  | .own => preserved { caller with rsp := caller.rsp - 8, rbp := m.system_stack - 16 }
  | .saved => fun
    | .r10 => some m.rbp
    | .rax => some (load u.memory m.system_stack)
    | .rdi => some (load u.memory (m.system_stack + 8))
    | .rsi => some (load u.memory (m.system_stack + 16))
    | .rdx => some (load u.memory (m.system_stack + 24))
    | .rcx => some (load u.memory (m.system_stack + 32))
    | .r8 => some (load u.memory (m.system_stack + 40))
    | .r9 => some m.r9
    | r => preserved { caller with rsp := caller.rsp - 8 } r
  | .lost => preserved { caller with
      rip := load u.memory (caller.rbx + 16), rsp := caller.rbx + 16,
      rbx := load u.memory caller.rbx }

def recoveries : List Recovery :=
  List.replicate 2 .caller ++ List.replicate 4 .low ++ List.replicate 8 .own ++
    (List.replicate 16 .saved ++ (List.replicate 11 .low ++ [.lost]))

def Finds (m caller : Machine) (t : Recovery) (p : Row Reg × Machine) : Prop :=
  p.1.unwind (load p.2.memory) (known p.2) = some (found m caller p.2 t)

variable {code : Code} {f : Callees} {m u u' caller exit : Machine}

structure Kept (m : Machine) (rbp : Word) (u : Machine) : Prop where
  rbx : u.rbx = m.rsp - 8
  rbp : u.rbp = rbp
  r12 : u.r12 = m.r12
  r13 : u.r13 = m.r13
  r14 : u.r14 = m.r14
  r15 : u.r15 = m.r15
  frame : FrameKept m u.memory

structure Slots (m : Machine) (memory : Memory) : Prop where
  first : load memory (m.system_stack - 8) = m.rbp
  rbp : load memory (m.system_stack - 16) = m.rbp
  r9 : load memory (m.system_stack - 80) = m.r9

theorem load_return {memory : Memory} (h : FrameKept m memory) (hret : Returned f m exit caller) :
    load memory (m.rsp - 8 + 24 + (-8)) = caller.rip := by
  have haddress : m.rsp - 8 + 24 + (-8) = m.rsp + 8 := by bv_omega
  rw [haddress, hret.rip]
  exact h.load (by bv_omega) (by bv_omega)

theorem load_rbx {memory : Memory} (h : FrameKept m memory) (hret : Returned f m exit caller) :
    load memory (m.rsp - 8 + 24 + (-24)) = caller.rbx := by
  have haddress : m.rsp - 8 + 24 + (-24) = m.rsp - 8 := by bv_omega
  rw [haddress, hret.rbx]
  exact h.rbx

theorem unwind_preserved {row : Row Reg} {w : Machine} {cfa : Word}
    (hcfa : row.cfa.value (load u.memory) (known u) = some cfa)
    (hrules : ∀ r, r ∉ [Reg.rip, .rsp, .rbx] → row.rules r = startproc.rules r)
    (hrip : (row.rules .rip).value (load u.memory) (known u) cfa .rip = some w.rip)
    (hrsp : (row.rules .rsp).value (load u.memory) (known u) cfa .rsp = some w.rsp)
    (hrbx : (row.rules .rbx).value (load u.memory) (known u) cfa .rbx = some w.rbx)
    (hrbp : u.rbp = w.rbp) (hr12 : u.r12 = w.r12) (hr13 : u.r13 = w.r13) (hr14 : u.r14 = w.r14)
    (hr15 : u.r15 = w.r15) : row.unwind (load u.memory) (known u) = some (preserved w) := by
  apply Row.unwind_eq hcfa
  intro r
  cases r with
  | rip => exact hrip
  | rsp => exact hrsp
  | rbx => exact hrbx
  | rbp =>
    rw [hrules .rbp (by decide)]
    exact congrArg some hrbp
  | r12 =>
    rw [hrules .r12 (by decide)]
    exact congrArg some hr12
  | r13 =>
    rw [hrules .r13 (by decide)]
    exact congrArg some hr13
  | r14 =>
    rw [hrules .r14 (by decide)]
    exact congrArg some hr14
  | r15 =>
    rw [hrules .r15 (by decide)]
    exact congrArg some hr15
  | rax | rdx | rcx | rsi | rdi | r8 | r9 | r10 | r11 =>
    rw [hrules _ (by decide)]
    rfl

theorem rules_startproc (r : Reg) (hr : r ∉ [Reg.rip, .rsp, .rbx]) :
    pushedRow.rules r = startproc.rules r ∧ framedRow.rules r = startproc.rules r := by
  cases r with
  | rip | rsp | rbx => simp at hr
  | _ => exact ⟨rfl, rfl⟩

theorem finds_framed {rbp : Word} (h : Kept m rbp u) (hret : Returned f m exit caller) :
    framedRow.unwind (load u.memory) (known u) =
      some (preserved { caller with rsp := caller.rsp - 8, rbp := rbp }) := by
  apply unwind_preserved rfl fun r hr => (rules_startproc r hr).2
  · apply congrArg some
    change load u.memory (u.rbx + 24 + (-8)) = caller.rip
    rw [h.rbx]
    exact load_return h.frame hret
  · apply congrArg some
    change u.rbx + 24 + (-8) = caller.rsp - 8
    rw [h.rbx, hret.rsp]
    bv_omega
  · apply congrArg some
    change load u.memory (u.rbx + 24 + (-24)) = caller.rbx
    rw [h.rbx]
    exact load_rbx h.frame hret
  · exact h.rbp
  · exact h.r12.trans hret.r12.symm
  · exact h.r13.trans hret.r13.symm
  · exact h.r14.trans hret.r14.symm
  · exact h.r15.trans hret.r15.symm

theorem finds_saved (h : Kept m (m.system_stack - 16) u) (hslots : Slots m u.memory)
    (hret : Returned f m exit caller) : Finds m caller .saved (savedRow, u) := by
  have hframed := congrFun (Option.some.inj (finds_framed h hret))
  have hword : ∀ w a : Word, m.system_stack - 16 + w = a →
      load u.memory (u.rbp + w) = load u.memory a := by
    rintro w a rfl
    rw [h.rbp]
  refine congrArg some ?_
  funext r
  cases r with
  | rbp =>
    refine congrArg some (Eq.trans (hword 0 _ ?_) (hslots.rbp.trans hret.rbp.symm))
    bv_omega
  | r10 => exact congrArg some ((hword 8 (m.system_stack - 8) (by bv_omega)).trans hslots.first)
  | r9 => exact congrArg some ((hword (-64) (m.system_stack - 80) (by bv_omega)).trans hslots.r9)
  | rax => exact congrArg some (hword 16 m.system_stack (by bv_omega))
  | rdi => exact congrArg some (hword 24 (m.system_stack + 8) (by bv_omega))
  | rsi => exact congrArg some (hword 32 (m.system_stack + 16) (by bv_omega))
  | rdx => exact congrArg some (hword 40 (m.system_stack + 24) (by bv_omega))
  | rcx => exact congrArg some (hword 48 (m.system_stack + 32) (by bv_omega))
  | r8 => exact congrArg some (hword 56 (m.system_stack + 40) (by bv_omega))
  | rip | rsp | rbx | r12 | r13 | r14 | r15 | r11 => exact hframed _

/-- The instructions that only write registers which a function may change. -/
def scratch : Instr → Bool
  | .pop dst | .mov _ dst | .load _ _ dst | .lea _ _ dst | .loadSystemStack dst | .sub _ dst
  | .inc dst => dst ∈ [.rax, .rdx, .rcx, .rsi, .rdi, .rsp, .r8, .r9, .r10, .r11]
  | .storeStackTop _ => true
  | _ => false

theorem kept_set {rbp : Word} (h : Kept m rbp u) {r : Reg}
    (hr : r ∈ [Reg.rax, .rdx, .rcx, .rsi, .rdi, .rsp, .r8, .r9, .r10, .r11]) (w : Word) :
    Kept m rbp (set u w r) ∧ (set u w r).memory = u.memory := by
  cases r with
  | rax | rdx | rcx | rsi | rdi | rsp | r8 | r9 | r10 | r11 =>
    exact ⟨⟨h.rbx, h.rbp, h.r12, h.r13, h.r14, h.r15, h.frame⟩, rfl⟩
  | rbx | rbp | r12 | r13 | r14 | r15 | rip => simp at hr

theorem scratch_keeps {rbp : Word} (h : Kept m rbp u) {i : Instr} (hi : scratch i = true)
    (he : exec code f i u = some u') : Kept m rbp u' ∧ u'.memory = u.memory := by
  cases i with
  | mov src dst | load offset base dst | lea offset base dst | loadSystemStack dst | sub src dst
  | inc dst =>
    cases he
    exact kept_set h (of_decide_eq_true hi) _
  | pop dst =>
    cases he
    have hpop : Kept m rbp { u with rsp := u.rsp + 8 } :=
      ⟨h.rbx, h.rbp, h.r12, h.r13, h.r14, h.r15, h.frame⟩
    exact kept_set hpop (of_decide_eq_true hi) _
  | storeStackTop src =>
    cases he
    exact ⟨⟨h.rbx, h.rbp, h.r12, h.r13, h.r14, h.r15, h.frame⟩, rfl⟩
  | push | callAllocateFrame | callBody | callReleaseFrame | ret => cases hi

theorem kept_trace {rbp : Word} {is : List Instr} (his : ∀ i ∈ is, scratch i = true)
    (h : Kept m rbp u) {p : List Machine × Machine} (ht : trace code f is u = some p) :
    (∀ v ∈ p.1, Kept m rbp v) ∧ Kept m rbp p.2 :=
  trace_invariant (fun i hi _ _ h he => (scratch_keeps h (his i hi) he).1) h ht

theorem kept_saving (h : ∀ x, Inside (m.system_stack - 88) 88 x →
    ¬ Inside (m.rsp - 8) (24 + m.r11.toNat) x) (rbp : Word) {ws : List Word}
    (hlen : ws.length ≤ 11) : Kept m rbp (saving m rbp ws) := by
  refine ⟨rfl, rfl, rfl, rfl, rfl, rfl, fun x hx => ?_⟩
  refine pushAll_outside (by omega) _ _ fun hin => ?_
  refine h x ?_ (hx.mono (Nat.le_add_right _ _))
  have hbase : m.system_stack - BitVec.ofNat 64 (8 * ws.length) =
      m.system_stack - 88 + BitVec.ofNat 64 (88 - 8 * ws.length) := by bv_omega
  rw [hbase] at hin
  refine hin.add ?_
  rw [BitVec.toNat_ofNat]
  have hmod := Nat.mod_le (88 - 8 * ws.length) (2 ^ 64)
  omega

theorem sub_sub_eight (a : Word) : a - 8 - 8 = a - 16 := by bv_omega

theorem finds_entered (hret : Returned f m exit caller) :
    Finds m caller .caller (enteredRow, m) := by
  have hrules : ∀ r, r ∉ [Reg.rip, .rsp, .rbx] → enteredRow.rules r = startproc.rules r :=
    fun _ _ => rfl
  apply unwind_preserved rfl hrules
  · apply congrArg some
    change load m.memory (m.rsp + 16 + (-8)) = caller.rip
    rw [show m.rsp + 16 + (-8) = m.rsp + 8 by bv_omega, hret.rip]
  · apply congrArg some
    change m.rsp + 16 + 0 = caller.rsp
    rw [hret.rsp]
    bv_omega
  · exact congrArg some hret.rbx.symm
  · exact hret.rbp.symm
  · exact hret.r12.symm
  · exact hret.r13.symm
  · exact hret.r14.symm
  · exact hret.r15.symm

theorem finds_pushed (hret : Returned f m exit caller) :
    Finds m caller .caller (pushedRow, push m m.rbx) := by
  have hframe : FrameKept m (push m m.rbx).memory := fun x _ => rfl
  apply unwind_preserved rfl fun r hr => (rules_startproc r hr).1
  · exact congrArg some (load_return hframe hret)
  · apply congrArg some
    change m.rsp - 8 + 24 + 0 = caller.rsp
    rw [hret.rsp]
    bv_omega
  · exact congrArg some (load_rbx hframe hret)
  · exact hret.rbp.symm
  · exact hret.r12.symm
  · exact hret.r13.symm
  · exact hret.r14.symm
  · exact hret.r15.symm

theorem forall₂_replicate {α β : Type*} {R : α → β → Prop} {a : α} {l : List β} {n : ℕ}
    (hlen : l.length = n) (h : ∀ b ∈ l, R a b) : List.Forall₂ R (List.replicate n a) l := by
  subst hlen
  induction l with
  | nil => exact .nil
  | cons b l ih =>
    exact .cons (h b List.mem_cons_self) (ih fun c hc => h c (List.mem_cons_of_mem b hc))

theorem finds_low (h : Kept m m.rbp u) (hret : Returned f m exit caller) :
    Finds m caller .low (framedRow, u) := by
  rw [← hret.rbp] at h
  exact finds_framed h hret

theorem finds_save (h : Layout code f m) (hret : Returned f m exit caller) :
    List.Forall₂ (Finds m caller) (List.replicate 2 .caller ++ List.replicate 4 .low ++
      List.replicate 8 .own) (savePlaces m) := by
  have hframed : Finds m caller .low (framedRow, { push m m.rbx with rbx := m.rsp - 8 }) :=
    finds_low ⟨rfl, rfl, rfl, rfl, rfl, rfl, fun x _ => rfl⟩ hret
  have hlow : ∀ ws : List Word, ws.length ≤ 11 →
      Finds m caller .low (framedRow, saving m m.rbp ws) := fun ws hlen =>
    finds_low (kept_saving h.apart m.rbp hlen) hret
  have hown : ∀ k, k < 8 → Finds m caller .own
      (framedRow, saving m (m.system_stack - 8 - 8) ((pushedWords m).take (k + 2))) := by
    intro k hk
    have hlen := List.length_take_le (k + 2) (pushedWords m)
    have hkept := kept_saving h.apart (m.system_stack - 8 - 8)
      (show ((pushedWords m).take (k + 2)).length ≤ 11 by omega)
    rw [sub_sub_eight] at hkept ⊢
    exact finds_framed hkept hret
  have h8 : List.Forall₂ (Finds m caller) (List.replicate 8 .own) ((List.range 8).map fun k =>
      (framedRow, saving m (m.system_stack - 8 - 8) ((pushedWords m).take (k + 2)))) := by
    refine forall₂_replicate (by simp) fun p hp => ?_
    obtain ⟨k, hk, rfl⟩ := List.mem_map.mp hp
    exact hown k (List.mem_range.mp hk)
  exact .cons (finds_entered hret) (.cons (finds_pushed hret) (.cons hframed
    (.cons (hlow [] (Nat.zero_le _)) (.cons (hlow [m.rbp] (by simp))
      (.cons (hlow [m.rbp, m.rbp] (by simp)) h8)))))

def Allocating (m u : Machine) : Prop :=
  Kept m (m.system_stack - 16) u ∧ Slots m u.memory

theorem allocating_saving (h : Layout code f m) :
    Allocating m (saving m (m.system_stack - 8 - 8) (pushedWords m)) := by
  have hlen : (pushedWords m).length = 10 := rfl
  have hkept := kept_saving h.apart (m.system_stack - 8 - 8)
    (show (pushedWords m).length ≤ 11 by omega)
  refine ⟨sub_sub_eight m.system_stack ▸ hkept, ?_⟩
  have hload : ∀ k (hk : k < 10), load (saving m (m.system_stack - 8 - 8) (pushedWords m)).memory
      (m.system_stack - BitVec.ofNat 64 (8 * (k + 1))) = (pushedWords m)[k] := fun k hk =>
    load_pushAll (by omega) _ _ hk
  exact ⟨hload 0 (by decide), hload 1 (by decide), hload 9 (by decide)⟩

theorem allocating_allocated (h : Allocated code f m u) : Allocating m u := by
  have hslot : ∀ k (hk : k < 11), k ≠ 2 → load u.memory
      (m.system_stack - BitVec.ofNat 64 (8 * (k + 1))) = (savedWords code m)[k] := h.slots
  exact ⟨⟨h.rbx, h.rbp, h.r12, h.r13, h.r14, h.r15,
    fun x hx => h.frame x (hx.mono (Nat.le_add_right _ _))⟩,
    hslot 0 (by decide) (by decide), hslot 1 (by decide) (by decide),
    hslot 9 (by decide) (by decide)⟩

theorem allocating_trace {is : List Instr} (his : ∀ i ∈ is, scratch i = true)
    (h : Allocating m u) {p : List Machine × Machine} (ht : trace code f is u = some p) :
    (∀ v ∈ p.1, Allocating m v) ∧ Allocating m p.2 := by
  apply trace_invariant ?_ h ht
  intro i hi v v' h he
  obtain ⟨hkept, hmemory⟩ := scratch_keeps h.1 (his i hi) he
  refine ⟨hkept, ?_⟩
  rw [hmemory]
  exact h.2

theorem allocate_places (h : Layout code f m) {m1 : Machine}
    (hcall : callAllocateFrame code f (saveRegisters m) = some m1)
    (hallocated : Allocated code f m m1) {p : List Machine × Machine}
    (ht : trace code f allocateInstrs (saving m (m.system_stack - 8 - 8) (pushedWords m)) =
      some p) : (∀ v ∈ p.1, Allocating m v) ∧ Kept m m.rbp p.2 := by
  have hsplit : allocateInstrs = allocateInstrs.take 3 ++ .callAllocateFrame ::
      ((allocateInstrs.drop 4).take 11 ++ [.load 0 .rbp .rbp]) := rfl
  rw [hsplit] at ht
  obtain ⟨q, r, hq, hr, hfst, hsnd⟩ := trace_append ht
  obtain ⟨hbefore, hcalled⟩ := allocating_trace (by decide) (allocating_saving h) hq
  have hcaller : q.2 = saveRegisters m := snd_of_after code f _ (after_save code f m) hq
  obtain ⟨next, r', hnext, hr', rfl⟩ := trace_cons_some hr
  obtain rfl : m1 = next := Option.some.inj ((hcaller ▸ hcall).symm.trans hnext)
  obtain ⟨s, t, hs, ht, hfst', hsnd'⟩ := trace_append hr'
  obtain ⟨hbehind, hlast⟩ := allocating_trace (by decide) (allocating_allocated hallocated) hs
  cases ht
  refine ⟨fun v hv => ?_, ?_⟩
  · rw [hfst, hfst'] at hv
    obtain hv | hv := List.mem_append.mp hv
    · exact hbefore v hv
    · obtain rfl | hv := List.mem_cons.mp hv
      · exact hcalled
      · obtain hv | hv := List.mem_append.mp hv
        · exact hbehind v hv
        · rw [List.mem_singleton.mp hv]
          exact hlast
  · rw [hsnd, hsnd']
    obtain ⟨hkept, hslots⟩ := hlast
    refine ⟨hkept.rbx, ?_, hkept.r12, hkept.r13, hkept.r14, hkept.r15, hkept.frame⟩
    change load s.2.memory s.2.rbp = m.rbp
    rw [hkept.rbp]
    exact hslots.rbp

theorem kept_push {rbp : Word} (h : Kept m rbp u)
    (hroom : ∀ x, Inside (u.rsp - 8) 8 x → ¬ Inside (m.rsp - 8) 24 x) (w : Word) :
    Kept m rbp (push u w) :=
  ⟨h.rbx, h.rbp, h.r12, h.r13, h.r14, h.r15, fun x hx =>
    (store_outside fun hin => hroom x hin hx).trans (h.frame x hx)⟩

theorem kept_release {rbp : Word} (h : Kept m rbp u)
    (hroom : ∀ x, Inside (u.rsp - 8) 8 x → ¬ Inside (m.rsp - 8) 24 x)
    (he : callReleaseFrame code f u = some u') : Kept m rbp u' := by
  have hpush := kept_push h hroom code.release_return
  obtain ⟨⟨frame_ptr, stack_top⟩, -, he⟩ := Option.bind_eq_some_iff.mp he
  cases he
  refine ⟨h.rbx, h.rbp, h.r12, h.r13, h.r14, h.r15, fun x hx => ?_⟩
  refine Eq.trans (if_pos (.inr ?_)) (hpush.frame x hx)
  change Inside u.rbx 24 x
  rwa [h.rbx]

theorem below_apart {ns : Word} (h : Areas m ns) {d : Word} (hd : 8 ≤ d) (hd' : d ≤ 24)
    (x : Word) (hx : Inside (ns - d) 8 x) : ¬ Inside (m.rsp - 8) 24 x := by
  intro hin
  refine h.unused x ?_ (.inr (hin.mono (Nat.le_add_right _ _)))
  have hbelow : Inside (ns - 24) 24 x := by
    rw [Inside] at hx ⊢
    bv_omega
  exact hbelow.mono (Nat.le_add_right _ _)

theorem finds_lost (hret : Returned f m exit caller) (hrbx : u.rbx = m.rbx) (hrbp : u.rbp = m.rbp)
    (hr12 : u.r12 = m.r12) (hr13 : u.r13 = m.r13) (hr14 : u.r14 = m.r14) (hr15 : u.r15 = m.r15) :
    Finds m caller .lost (framedRow, u) := by
  have haddress : u.rbx + 24 + (-8) = caller.rbx + 16 := by
    rw [hrbx, hret.rbx]
    bv_omega
  apply unwind_preserved rfl fun r hr => (rules_startproc r hr).2
  · exact congrArg (fun a => some (load u.memory a)) haddress
  · exact congrArg some haddress
  · apply congrArg fun a => some (load u.memory a)
    change u.rbx + 24 + (-24) = caller.rbx
    rw [hrbx, hret.rbx]
    bv_omega
  · exact hrbp.trans hret.rbp.symm
  · exact hr12.trans hret.r12.symm
  · exact hr13.trans hret.r13.symm
  · exact hr14.trans hret.r14.symm
  · exact hr15.trans hret.r15.symm

theorem kept_called {ns : Word} (h : Kept m m.rbp u)
    (hexited : Exited f m (runBody f (enterBody code u)) ns) {p : List Machine × Machine}
    (ht : trace code f [.callBody, .push .rax, .push .rdx, .callReleaseFrame] u = some p) :
    (∀ v ∈ p.1, Kept m m.rbp v) ∧ Kept m m.rbp p.2 := by
  let e := runBody f (enterBody code u)
  have hbody : Kept m m.rbp e := ⟨hexited.rbx, hexited.rbp, hexited.r12, hexited.r13, hexited.r14,
    hexited.r15, hexited.frame⟩
  have hroom : ∀ d : Word, 8 ≤ d → d ≤ 24 → ∀ x, Inside (e.rsp - d) 8 x →
      ¬ Inside (m.rsp - 8) 24 x := by
    rw [hexited.rsp]
    exact fun d => below_apart hexited.areas
  have hrax := kept_push hbody (hroom 8 (by decide) (by decide)) e.rax
  have hrdx := kept_push hrax (fun x hx => hroom 16 (by decide) (by decide) x
    (by rwa [← sub_sub_eight])) e.rdx
  obtain ⟨_, r1, he, hr1, rfl⟩ := trace_cons_some ht
  cases he
  obtain ⟨_, r2, he, hr2, rfl⟩ := trace_cons_some hr1
  cases he
  obtain ⟨_, r3, he, hr3, rfl⟩ := trace_cons_some hr2
  cases he
  obtain ⟨released, r4, hrelease, hr4, rfl⟩ := trace_cons_some hr3
  cases hr4
  have hreleased := kept_release hrdx (fun x hx => hroom 24 (by decide) (by decide) x (by
    have hsub : e.rsp - 8 - 8 - 8 = e.rsp - 24 := by bv_omega
    rw [← hsub]
    exact hx)) hrelease
  refine ⟨?_, hreleased⟩
  simp only [List.forall_mem_cons]
  exact ⟨h, hbody, hrax, hrdx, fun v hv => absurd hv List.not_mem_nil⟩

/-- The call of the body, and what follows up to the return. Only the last state has
lost the old stack pointer. -/
theorem body_places {m1 : Machine} (hkept : Kept m m.rbp u)
    (hswitch : after code f (bodyInstrs.take 2) u = some (switchStack m1)) {ns : Word}
    (hexited : Exited f m (runBody f (enterBody code (switchStack m1))) ns)
    {p : List Machine × Machine} (ht : trace code f bodyInstrs u = some p) :
    ∃ front restored last, p.1 = front ++ [last] ∧ (∀ v ∈ front, Kept m m.rbp v) ∧
      Kept m m.rbp restored ∧ restored.rsp = m.rsp - 8 ∧
      exec code f (.pop .rbx) restored = some last := by
  have hsplit : bodyInstrs = bodyInstrs.take 2 ++ ([.callBody, .push .rax, .push .rdx,
      .callReleaseFrame] ++ ([.storeStackTop .rax, .pop .rdx, .pop .rax] ++
        [.mov .rbx .rsp, .pop .rbx, .ret])) := rfl
  rw [hsplit] at ht
  obtain ⟨q, r, hq, hr, hfst, -⟩ := trace_append ht
  obtain ⟨hbefore, hcall⟩ := kept_trace (by decide) hkept hq
  have hmachine : q.2 = switchStack m1 := snd_of_after code f u hswitch hq
  rw [← hmachine] at hexited
  obtain ⟨s, t, hs, ht, hfst', -⟩ := trace_append hr
  obtain ⟨hcalled, hreleased⟩ := kept_called hcall hexited hs
  obtain ⟨v, w, hv, hw, hfst'', -⟩ := trace_append ht
  obtain ⟨hbehind, hpopped⟩ := kept_trace (by decide) hreleased hv
  obtain ⟨restored, w', hmov, hw', rfl⟩ := trace_cons_some hw
  obtain ⟨last, w'', hpop, hw'', rfl⟩ := trace_cons_some hw'
  obtain ⟨hrestored, -⟩ := scratch_keeps hpopped (i := .mov .rbx .rsp) rfl hmov
  obtain ⟨_, _, hret, hnil, rfl⟩ := trace_cons_some hw''
  cases hret
  cases hnil
  have hrsp : restored.rsp = m.rsp - 8 := by
    cases hmov
    exact hpopped.rbx
  refine ⟨q.1 ++ (s.1 ++ (v.1 ++ [v.2, restored])), restored, last, ?_, ?_, hrestored, hrsp, hpop⟩
  · rw [hfst, hfst', hfst'', List.append_assoc, List.append_assoc, List.append_assoc]
    rfl
  · simp only [List.forall_mem_append, List.forall_mem_cons]
    exact ⟨hbefore, hcalled, hbehind, hpopped, hrestored, fun x hx => absurd hx List.not_mem_nil⟩

theorem finds_body {m1 : Machine} (hkept : Kept m m.rbp u)
    (hswitch : after code f (bodyInstrs.take 2) u = some (switchStack m1)) {ns : Word}
    (hexited : Exited f m (runBody f (enterBody code (switchStack m1))) ns)
    (hret : Returned f m exit caller) {p : List Machine × Machine}
    (ht : trace code f bodyInstrs u = some p) :
    List.Forall₂ (Finds m caller) (List.replicate 11 .low ++ [.lost])
      (p.1.map (Prod.mk framedRow)) := by
  obtain ⟨front, restored, last, hp, hfront, hrestored, hrsp, hpop⟩ :=
    body_places hkept hswitch hexited ht
  cases hpop
  have hlen := trace_length ht
  have hrbx : load restored.memory restored.rsp = m.rbx := by
    rw [hrsp]
    exact hrestored.frame.rbx
  rw [hp, List.map_append]
  refine List.rel_append (forall₂_replicate ?_ fun r hr => ?_) (.cons (finds_lost hret hrbx
    hrestored.rbp hrestored.r12 hrestored.r13 hrestored.r14 hrestored.r15) .nil)
  · rw [hp, List.length_append] at hlen
    rw [List.length_map]
    exact Nat.succ.inj hlen
  · obtain ⟨v, hv, rfl⟩ := List.mem_map.mp hr
    exact finds_low (hfront v hv) hret

/-- What a debugger finds at each instruction of `__morestack`. -/
theorem unwinds_morestack (h : Layout code f m) (hblock : ¬ NoBlock f m) :
    ∃ ps last o, places code f morestackBlocks ⟨startproc, []⟩ m = some (ps, last) ∧
      morestack code f m = some o ∧ MorestackMachine.ret last = o.caller ∧
      List.Forall₂ (Finds m o.caller) recoveries ps := by
  obtain ⟨m1, hcall, hallocated⟩ := callAllocateFrame_spec h hblock
  have hexited := exited_of_entered (entered_of_allocated (f := f) hallocated)
  obtain ⟨m2, hleave, hret⟩ := returned_of_exited code hexited
  let entry := enterBody code (switchStack m1)
  let o : Outcome := ⟨entry, runBody f entry, MorestackMachine.ret m2⟩
  have ho : morestack code f m = some o := by
    simp only [morestack, hcall, hleave, Option.bind_eq_bind, Option.bind_some, o, entry]
  have hplaces := places_morestack code f m
  rw [ho] at hplaces
  obtain ⟨⟨ps, last⟩, hps, hlast⟩ := Option.map_eq_some_iff.mp hplaces
  refine ⟨ps, last, o, hps, ho, hlast, ?_⟩
  rw [places_eq] at hps
  obtain ⟨p, hp, hps⟩ := Option.bind_eq_some_iff.mp hps
  obtain ⟨q, hq, he⟩ := Option.map_eq_some_iff.mp hps
  obtain ⟨rfl, -⟩ := Prod.mk.inj he
  obtain ⟨hallocating, hkept⟩ := allocate_places h hcall hallocated hp
  have hswitch : after code f (bodyInstrs.take 2) p.2 = some (switchStack m1) := by
    have hafter := after_allocate code f m
    rw [hcall, Option.bind_some, after, hp] at hafter
    rw [← after_switch code f m1, ← hafter]
    rfl
  rw [List.append_assoc]
  refine List.rel_append (finds_save h hret) (List.rel_append (forall₂_replicate ?_ ?_)
    (finds_body hkept hswitch hexited hret hq))
  · rw [List.length_map, trace_length hp]
    rfl
  · intro r hr
    obtain ⟨v, hv, rfl⟩ := List.mem_map.mp hr
    exact finds_saved (hallocating v hv).1 (hallocating v hv).2 hret

theorem unwinds_morestack_sample : ∃ ps last o,
    places sampleCode sampleCallees morestackBlocks ⟨startproc, []⟩ (sample 0) = some (ps, last) ∧
    ps.length = 42 ∧ morestack sampleCode sampleCallees (sample 0) = some o ∧
    List.Forall₂ (Finds (sample 0) o.caller) recoveries ps := by
  obtain ⟨ps, last, o, hps, ho, -, hfinds⟩ := unwinds_morestack (sample_layout .morestack 0)
    (fun hno => absurd hno.2 (by decide))
  exact ⟨ps, last, o, hps, hfinds.length_eq.symm, ho, hfinds⟩

end Libseff.MorestackBacktraces
