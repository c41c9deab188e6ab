import Libseff.AtomicObjects

namespace Libseff.SpecObjects

open AtomicObjects

/-- An object whose operations may have several results. -/
structure SpecObject (ω op ρ : Type*) where
  init : ω
  allows : op → ω → ω → ρ → Prop

variable {ω op ρ : Type*} {ι : Type*} [DecidableEq ι]

/-- A history of overlapping calls in which every operation takes place at one
point between its call and its return. -/
inductive Linearizes (O : SpecObject ω op ρ) :
    List (HistoryEvent ι op ρ) → ω → (ι → Phase op ρ) → Prop
  | start : Linearizes O [] O.init (fun _ => .idle)
  | call {h : List (HistoryEvent ι op ρ)} {a : ω} {p : ι → Phase op ρ} {i : ι} (o : op)
      (hl : Linearizes O h a p) (hp : p i = .idle) :
      Linearizes O (h ++ [.call i o]) a (Function.update p i (.pending o))
  | point {h : List (HistoryEvent ι op ρ)} {a a' : ω} {p : ι → Phase op ρ} {i : ι} {o : op} {r : ρ}
      (hl : Linearizes O h a p) (hp : p i = .pending o) (ha : O.allows o a a' r) :
      Linearizes O h a' (Function.update p i (.done r))
  | ret {h : List (HistoryEvent ι op ρ)} {a : ω} {p : ι → Phase op ρ} {i : ι} {r : ρ}
      (hl : Linearizes O h a p) (hp : p i = .done r) :
      Linearizes O (h ++ [.ret i r]) a (Function.update p i .idle)

variable {O : SpecObject ω op ρ} {h : List (HistoryEvent ι op ρ)} {a a' : ω} {p : ι → Phase op ρ}
  {i : ι}

theorem Linearizes.point_ret {o : op} {r : ρ} (hl : Linearizes O h a p) (hp : p i = .pending o)
    (ha : O.allows o a a' r) : Linearizes O (h ++ [.ret i r]) a' (Function.update p i .idle) := by
  have hret := (hl.point hp ha).ret (Function.update_self ..)
  rwa [Function.update_idem] at hret

theorem Linearizes.ret_of_done {r : ρ} (hl : Linearizes O h a (Function.update p i (.done r))) :
    Linearizes O (h ++ [.ret i r]) a (Function.update p i .idle) := by
  have hret := hl.ret (Function.update_self ..)
  rwa [Function.update_idem] at hret

end Libseff.SpecObjects
