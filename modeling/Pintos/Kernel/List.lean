import Pintos.Lib.Dll

/-!
# Pintos.Kernel.List

The intrusive lists of `lib/kernel/list.c` on an explicit heap of
`struct list_elem`s.  A list is its two header elements; a function whose
`ASSERT` fails returns `none`.

`listPushBack_isList` and `listRemove_isList` say what the two primitives do
to a well-formed list.
-/

namespace Pintos

open Dll Function List

variable {ν : Type*} [DecidableEq ν]

/-! ## element kinds -/

/-- `is_head`. -/
def isHead (h : Heap ν) (elem : ν) : Bool := (h elem).prev.isNone && (h elem).next.isSome

/-- `is_interior`. -/
def isInterior (h : Heap ν) (elem : ν) : Bool := (h elem).prev.isSome && (h elem).next.isSome

/-- `is_tail`. -/
def isTail (h : Heap ν) (elem : ν) : Bool := (h elem).prev.isSome && (h elem).next.isNone

/-- `list_next`. -/
def listNext (h : Heap ν) (elem : ν) : Option ν :=
  if isHead h elem || isInterior h elem then (h elem).next else none

/-- `list_prev`. -/
def listPrev (h : Heap ν) (elem : ν) : Option ν :=
  if isInterior h elem || isTail h elem then (h elem).prev else none

/-! ## the primitives -/

/-- `list_init` on the header elements `hd` and `tl`. -/
def listInit (h : Heap ν) (hd tl : ν) : Heap ν :=
  update (update h hd ⟨none, some tl⟩) tl ⟨some hd, none⟩

/-- `list_insert`: link `elem` just before `before`. -/
def listInsert (h : Heap ν) (before elem : ν) : Option (Heap ν) :=
  if isInterior h before || isTail h before then
    (h before).prev.map fun p => insertBetween h p before elem
  else
    none

/-- `list_push_back` on the list whose tail is `tl`. -/
def listPushBack (h : Heap ν) (tl elem : ν) : Option (Heap ν) := listInsert h tl elem

/-- `list_remove`: the heap and the element that followed. -/
def listRemove (h : Heap ν) (elem : ν) : Option (Heap ν × ν) :=
  match (h elem).prev, (h elem).next with
  | some p, some n => some (bridge h p n, n)
  | _, _ => none

/-! ## what they do to a well-formed list -/

variable {h : Heap ν} {hd tl e : ν} {xs ys : List ν}

theorem listInit_isList (hne : hd ≠ tl) : IsList (listInit h hd tl) hd tl [] where
  headPrev := by simp [listInit, hne]
  tailNext := by simp [listInit]
  chain := ⟨by simp [listInit, hne], by simp [listInit]⟩
  nodup := by simp [hne]

omit [DecidableEq ν] in
theorem interior_or_tail {p : ν} (hp : (h e).prev = some p) :
    (isInterior h e || isTail h e) = true := by
  unfold isInterior isTail
  rw [hp]
  cases (h e).next <;> rfl

omit [DecidableEq ν] in
theorem isInterior_of_mem (hl : IsList h hd tl xs) (he : e ∈ xs) : isInterior h e = true := by
  obtain ⟨as, bs, rfl⟩ := append_of_mem he
  obtain ⟨hbefore, hafter⟩ := chain_append_cons.mp hl.chain
  obtain ⟨p, hp⟩ := hbefore.exists_prev
  obtain ⟨n, hn⟩ := hafter.exists_next
  rw [isInterior, hp, hn]
  rfl

omit [DecidableEq ν] in
theorem listNext_eq (hl : IsList h hd tl (xs ++ e :: ys)) : listNext h e = (ys ++ [tl]).head? := by
  have hinterior := isInterior_of_mem hl (mem_append_right xs mem_cons_self)
  have hpath := (chain_append_cons.mp hl.chain).2.path
  rw [listNext, hinterior, Bool.or_true, if_pos rfl]
  cases ys with
  | nil => exact hpath
  | cons y ys => exact hpath.1

/-- `list_push_back` passes its `ASSERT` when something is before the tail. -/
theorem listPushBack_of_prev {p : ν} (hp : (h tl).prev = some p) (e : ν) :
    listPushBack h tl e = some (insertBetween h p tl e) := by
  rw [listPushBack, listInsert, if_pos (interior_or_tail hp), hp, Option.map_some]

theorem listRemove_of_links {p n : ν} (hp : (h e).prev = some p) (hn : (h e).next = some n) :
    listRemove h e = some (bridge h p n, n) := by
  simp only [listRemove, hp, hn]

/-- `list_push_back` appends a fresh element. -/
theorem listPushBack_isList (hl : IsList h hd tl xs) (he : e ∉ hd :: xs ++ [tl]) :
    ∃ h', listPushBack h tl e = some h' ∧ IsList h' hd tl (xs ++ [e]) := by
  have hl' : IsList h hd tl (xs ++ []) := (append_nil xs).symm ▸ hl
  have he' : e ∉ hd :: (xs ++ []) ++ [tl] := (append_nil xs).symm ▸ he
  obtain ⟨p, hp, -, hins⟩ := hl'.insert he' rfl
  exact ⟨insertBetween h p tl e, listPushBack_of_prev hp e, hins⟩

/-- `list_remove` takes a member out. -/
theorem listRemove_isList (hl : IsList h hd tl (xs ++ e :: ys)) :
    ∃ h' n, listRemove h e = some (h', n) ∧ IsList h' hd tl (xs ++ ys) := by
  obtain ⟨p, n, hp, hn, -, -, hrem⟩ := hl.remove
  exact ⟨bridge h p n, n, listRemove_of_links hp hn, hrem⟩

end Pintos
