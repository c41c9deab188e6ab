import Libseff.StructLayout

namespace Libseff.Declarations

open StructLayout

mutual

/-- The types of the declaration generator: scalars, the names that have no size,
`ptr`, `arr`, `func` without its parameters, and the declarations with a name of
their own. -/
inductive Ty where
  | byte
  | halfWord
  | word
  | sizeT
  | void
  | unsized (name : String)
  | ptr (ty : Ty)
  | arr (ty : Ty) (n : ℕ)
  | func (ret : Ty)
  | typeDef (name : String) (target : Ty)
  | enum (name : String) (underlying : Ty)
  | struct (name : String) (fields : Fields)

inductive Fields where
  | nil
  | cons (name : String) (ty : Ty) (rest : Fields)

end

def wordSize : ℕ := 8

mutual

/-- The attribute `size`, which an unsized type does not have. -/
def size : Ty → Option ℕ
  | .byte => some 1
  | .halfWord => some 4
  | .word => some wordSize
  | .sizeT => some wordSize
  | .void => some 0
  | .unsized _ => none
  | .ptr _ => some wordSize
  | .arr ty n => (size ty).map fun s => n * s
  | .func _ => some 0
  | .typeDef _ target => size target
  | .enum _ underlying => size underlying
  | .struct _ fields => (structInit fields 0).map Prod.snd

/-- The loop of `Struct.__init__`: the offsets of the fields, which `asm_str`
prints, and the final offset, which is the size of the struct. -/
def structInit : Fields → ℕ → Option (List ℕ × ℕ)
  | .nil, offset => some ([], offset)
  | .cons _ ty rest, offset =>
    (size ty).bind fun s =>
      (structInit rest (offset + s)).map fun p => (offset :: p.1, p.2)

end

inductive Suffix where
  | dim (n : ℕ)
  | params

/-- The text that `declare` builds around the name of a field: so many stars
before it, and what has been appended to it. -/
structure Declarator where
  stars : ℕ
  suffixes : List Suffix

def Declarator.plain : Declarator := ⟨0, []⟩

def Suffix.read : Suffix → CType → CType
  | .dim n, t => .array t n
  | .params, _ => .function

/-- The type of C that the declarator gives to its name after a type `base`: the
suffixes bind closer than the stars. -/
def Declarator.read (d : Declarator) (base : CType) : CType :=
  d.suffixes.foldr Suffix.read (if d.stars = 0 then base else .pointer)

mutual

/-- `ty.declare(d)` as C reads it. A name that was declared before stands for the
type of its declaration. -/
def declare : Ty → Declarator → CType
  | .byte, d => d.read (.int 0)
  | .halfWord, d => d.read (.int 2)
  | .word, d => d.read (.int 3)
  | .sizeT, d => d.read (.int 3)
  | .void, d => d.read .incomplete
  | .unsized _, d => d.read .incomplete
  | .ptr ty, d => declare ty { d with stars := d.stars + 1 }
  | .arr ty n, d => declare ty { d with suffixes := d.suffixes ++ [.dim n] }
  | .func ret, d => declare ret { d with suffixes := d.suffixes ++ [.params] }
  | .typeDef _ target, d => d.read (declare target .plain)
  | .enum _ underlying, d => d.read (declare underlying .plain)
  | .struct _ fields, d => d.read (.struct (members fields))

/-- `c_str` of the fields of a struct as C reads it. -/
def members : Fields → CMembers
  | .nil => .nil
  | .cons _ ty rest => .cons (declare ty .plain) (members rest)

end

/-- The assembly and C have the same layout: C accepts the struct, places the
fields where `asm_str` says, and gives it the recorded size. -/
def SameLayout (fields : Fields) : Prop :=
  ∃ offsets total e, structInit fields 0 = some (offsets, total) ∧
    place (members fields) 0 = some (offsets, e) ∧
    sizeof (.struct (members fields)) = some total

mutual

def Everywhere (P : Fields → Prop) : Ty → Prop
  | .arr ty _ => Everywhere P ty
  | .typeDef _ target => Everywhere P target
  | .enum _ underlying => Everywhere P underlying
  | .struct _ fields => P fields ∧ EverywhereFields P fields
  | _ => True

def EverywhereFields (P : Fields → Prop) : Fields → Prop
  | .nil => True
  | .cons _ ty rest => Everywhere P ty ∧ EverywhereFields P rest

end

/-- The number of pointers that the declaration of a pointer to `ty` makes, and
`none` where it makes a function. -/
def pointers : Ty → Option ℕ
  | .ptr ty => pointers ty
  | .arr ty n => (pointers ty).map fun k => n * k
  | .func _ => none
  | _ => some 1

def Declarable : Ty → Prop
  | .void => False
  | .unsized _ => False
  | .func _ => False
  | .ptr ty => pointers ty ≠ none
  | .arr ty _ => Declarable ty
  | .typeDef _ target => Declarable target
  | .enum _ underlying => Declarable underlying
  | _ => True

def Plain : Ty → Prop
  | .void => False
  | .unsized _ => False
  | .func _ => False
  | .ptr ty => pointers ty = some 1
  | .arr ty n => Plain ty ∨ n = 0 ∧ Declarable ty
  | .typeDef _ target => Plain target
  | .enum _ underlying => Plain underlying
  | _ => True

/-- The sums of the sizes from `offset` on: each one is a multiple of the
alignment of the field that begins there, and the last one of `align`. -/
def Aligned (align : ℕ) : Fields → ℕ → Prop
  | .nil, offset => align ∣ offset
  | .cons _ ty rest, offset =>
    Plain ty ∧ alignOf (declare ty .plain) ∣ offset ∧
      ∃ s, size ty = some s ∧ Aligned align rest (offset + s)

def Packed (fields : Fields) : Prop := Aligned (membersAlign (members fields)) fields 0

def seffContT : Ty := .struct "seff_cont_t"
  (.cons "stack_top" (.ptr .void) (.cons "current_coroutine" (.ptr .void)
    (.cons "rsp" (.ptr .void) (.cons "rbp" (.ptr .void) (.cons "ip" (.ptr .void)
    (.cons "rbx" (.ptr .void) (.cons "r12" (.ptr .void) (.cons "r13" (.ptr .void)
    (.cons "r14" (.ptr .void) (.cons "r15" (.ptr .void) .nil))))))))))

def seffStackSegmentFields : Fields :=
  .cons "prev" (.ptr (.unsized "struct _seff_stack_segment_t"))
    (.cons "next" (.ptr (.unsized "struct _seff_stack_segment_t"))
    (.cons "size" .sizeT (.cons "canary" (.ptr .void) (.cons "padding" (.arr .byte 128) .nil))))

def effectSet : Ty :=
  .typeDef "effect_set" (.ptr (.typeDef "effect_id"
    (.ptr (.typeDef "default_handler_t" (.func (.ptr .void))))))

def seffCoroutineFields : Fields :=
  .cons "frame_ptr" (.typeDef "seff_frame_ptr_t"
      (.ptr (.struct "seff_stack_segment_t" seffStackSegmentFields)))
    (.cons "resume_point" seffContT
    (.cons "state" (.enum "seff_coroutine_state_t" .word)
    (.cons "parent_coroutine" (.ptr (.unsized "struct _seff_coroutine_t"))
    (.cons "handled_effects" effectSet .nil))))

end Libseff.Declarations
