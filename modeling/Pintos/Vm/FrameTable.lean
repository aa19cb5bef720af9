import Pintos.Lib.Machine
import Pintos.Kernel.List
import Pintos.Threads.Vaddr

/-!
# Pintos.Vm.FrameTable

The list `frame_table` of `vm/frame.c`, pointer by pointer.

```
get_frame_to_evict:  e = list_begin; second chance for e; list_remove (e); list_push_back (e)
frame_evict:         f = get_frame_to_evict ();
                     while f is a kernel or stack page: list_push_back (f); f = get_frame_to_evict ();
                     write f to swap; frame_delete (f)
```

The scan of `get_frame_to_evict` never moves on from the first frame, so that it
takes the first frame after at most one second chance and moves it to the back.
When `frame_evict` rejects it, the frame is linked a second time before the tail
while it is already there: its `prev` and `next` then lead to itself.  The next
rotation mends `next`; `prev` is only mended when the frame comes to the front.

A call is one step.  Frames are values of `φ`; `malloc` returns any that is not
in use.  A call that would follow a null pointer or fail an `ASSERT`, or that
takes more rounds than its `fuel`, is not a step.
-/

namespace Pintos.FrameTable

set_option linter.unusedSectionVars false

open Dll
open Function List Option

variable {φ τ : Type*}

/-! ## the state -/

/-- The elements of `frame_table`: its two header elements and the `f_elem`s. -/
inductive TableNode (φ : Type*)
  | head
  | tail
  | frame (f : φ)
deriving DecidableEq

/-- The fields `upage` and `owner_thread` of every frame, the links of the table,
what `pagedir_is_accessed` answers and the global `num`.  The last field is
history: the frames that have been created and not deleted. -/
structure FrameSys (φ τ : Type*) where
  heap : Heap (TableNode φ)
  upage : φ → Nat
  ownerThread : φ → τ
  accessed : τ → Nat → Bool
  num : Int
  created : φ → Bool

open FrameSys

/-- `is_stack`, with the wrap-around of 32-bit pointers. -/
def isStack (num : Int) (addr : Nat) : Bool :=
  addr > ((physBase - num * pgsize) % 2 ^ 32 : Int).toNat

/-- The frames that the loop of `frame_evict` stops at. -/
def FrameSys.evictable (s : FrameSys φ τ) (f : φ) : Bool :=
  isUserVaddr (s.upage f) && !isStack s.num (s.upage f)

/-! ## the table as a list -/

/-- `frames` are the frames that have been created and not deleted, and the table
links them in this order. -/
structure Table (s : FrameSys φ τ) (frames : List φ) : Prop where
  isList : IsList s.heap .head .tail (frames.map .frame)
  mem : ∀ {f}, f ∈ frames ↔ s.created f = true

/-- The table is a well-formed list in which every frame occurs once, and a
traversal from `list_begin` gets to `list_end`. -/
structure TableIntact (s : FrameSys φ τ) : Prop where
  list : ∃ frames, Table s frames ∧ frames.Nodup
  traversal : ∃ n, (s.heap .head).next.bind (walk s.heap n) = some .tail

variable {s s' : FrameSys φ τ} {f g : φ} {frames : List φ} {h : Heap (TableNode φ)}

theorem Table.nodup (ht : Table s frames) : frames.Nodup := by
  have hnd := ht.isList.nodup
  rw [cons_append, nodup_cons, nodup_append] at hnd
  exact hnd.2.1.of_map _

theorem Table.intact (ht : Table s frames) : TableIntact s where
  list := ⟨frames, ht, ht.nodup⟩
  traversal := ⟨_, ht.isList.chain.path.walk⟩

/-- Frame lemma: the table does not depend on the other fields. -/
theorem Table.congr (ht : Table s frames) (hheap : s'.heap = s.heap)
    (hcreated : s'.created = s.created) : Table s' frames where
  isList := hheap ▸ ht.isList
  mem := hcreated ▸ ht.mem

theorem frame_not_mem (hf : f ∉ frames) :
    TableNode.frame f ∉ TableNode.head :: frames.map .frame ++ [.tail] := by
  simpa using hf

/-! ## the functions -/

/-- The loop of `lookup_frame`, from the element `e` on. -/
def lookupFrom (s : FrameSys φ τ) (upage : Nat) : Nat → TableNode φ → Option (Option φ)
  | 0, _ => none
  | _ + 1, .tail => some none
  | _ + 1, .head => none
  | fuel + 1, .frame f =>
    if s.upage f = upage then
      some (some f)
    else
      (s.heap (.frame f)).next.bind (lookupFrom s upage fuel)

/-- `lookup_frame`. -/
def lookupFrame (fuel : Nat) (s : FrameSys φ τ) (upage : Nat) : Option (Option φ) :=
  (s.heap .head).next.bind (lookupFrom s upage fuel)

variable [DecidableEq φ]

/-- `frame_init`. -/
def frameInit (s : FrameSys φ τ) : FrameSys φ τ :=
  { s with heap := listInit s.heap .head .tail, created := fun _ => false }

/-- `frame_delete`. -/
def frameDelete (s : FrameSys φ τ) (f : φ) : Option (FrameSys φ τ) :=
  (listRemove s.heap (.frame f)).map fun r =>
    { s with heap := r.1, created := update s.created f false }

/-- The chosen frame of `get_frame_to_evict` is moved to the back. -/
def rotate (h : Heap (TableNode φ)) (f : φ) : Option (Heap (TableNode φ)) :=
  (listRemove h (.frame f)).bind fun r => listPushBack r.1 .tail (.frame f)

variable [DecidableEq τ] {fuel upage : Nat} {s₁ : FrameSys φ τ} {r : FrameSys φ τ × Option φ}
  {y c : φ} {ys done : List φ}

/-- `pagedir_set_accessed`. -/
def pagedirSetAccessed (accessed : τ → Nat → Bool) (t : τ) (upage : Nat) (b : Bool) :
    τ → Nat → Bool :=
  update accessed t (update (accessed t) upage b)

/-- The inner loop of `get_frame_to_evict`.  It is left with a frame, or with
null at the end of the table. -/
def secondChance (e : TableNode φ) : Nat → FrameSys φ τ → Option (FrameSys φ τ × Option φ)
  | 0, _ => none
  | fuel + 1, s =>
    match e with
    | .tail => some (s, none)
    | .head => none
    | .frame f =>
      if s.accessed (s.ownerThread f) (s.upage f) then
        secondChance e fuel { s with
          accessed := pagedirSetAccessed s.accessed (s.ownerThread f) (s.upage f) false }
      else
        (rotate s.heap f).map fun h => ({ s with heap := h }, some f)

/-- `get_frame_to_evict`.  `round_count` is `2` after the first round of the outer
loop, which is the only one; the bit of the frame is clear in the second round of
the inner loop, which is the last (`secondChance_frame`). -/
def getFrameToEvict (s : FrameSys φ τ) : Option (FrameSys φ τ × Option φ) :=
  (s.heap .head).next.bind fun e => secondChance e 2 s

/-- The loop of `frame_evict`, with `this_frame`. -/
def evictLoop : Nat → FrameSys φ τ → φ → Option (FrameSys φ τ × φ)
  | 0, _, _ => none
  | fuel + 1, s, f =>
    if s.evictable f then
      some (s, f)
    else
      (listPushBack s.heap .tail (.frame f)).bind fun h =>
        (getFrameToEvict { s with heap := h }).bind fun r =>
          r.2.bind fun f => evictLoop fuel r.1 f

/-- `frame_evict`, without the contents of the page. -/
def frameEvict (fuel : Nat) (s : FrameSys φ τ) : Option (FrameSys φ τ) :=
  (getFrameToEvict s).bind fun r =>
    r.2.bind fun f => (evictLoop fuel r.1 f).bind fun r => frameDelete r.1 r.2

/-- `frame_create`, with the frame that `malloc` returns; `full` when the first
`palloc_get_page` fails. -/
def frameCreate (fuel : Nat) (s : FrameSys φ τ) (f : φ) (t : τ) (upage : Nat) (full : Bool) :
    Option (FrameSys φ τ) :=
  let s := { s with
    upage := update s.upage f upage
    ownerThread := update s.ownerThread f t }
  (if full then frameEvict fuel s else some s).bind fun s =>
    (listPushBack s.heap .tail (.frame f)).map fun h =>
      { s with heap := h, created := update s.created f true }

/-! ## the machine -/

/-- The calls, and the changes of the accessed bits and of `num` between them. -/
inductive FrameAct (φ τ : Type*)
  | create (f : φ) (t : τ) (upage : Nat) (full : Bool) (fuel : Nat)
  | delete (f : φ)
  | evict (fuel : Nat)
  | pick
  | setAccessed (t : τ) (upage : Nat) (accessed : Bool)
  | setNum (num : Int)

def frameStep (s : FrameSys φ τ) : FrameAct φ τ → Option (FrameSys φ τ)
  | .create f t upage full fuel =>
    if s.created f then none else frameCreate fuel s f t upage full
  | .delete f => if s.created f then frameDelete s f else none
  | .evict fuel => frameEvict fuel s
  | .pick => (getFrameToEvict s).map Prod.fst
  | .setAccessed t upage b => some { s with accessed := pagedirSetAccessed s.accessed t upage b }
  | .setNum num => some { s with num := num }

/-- The frame table from `frame_init` on. -/
def frameMachine (φ τ : Type*) [DecidableEq φ] [DecidableEq τ] :
    Machine (FrameSys φ τ) (FrameAct φ τ) where
  init s := ∃ s₀, s = frameInit s₀
  step := frameStep

/-! ## what the functions do -/

section Primitives

theorem mem_of_lookupFrom {a : TableNode φ} (hp : Path s.heap a (frames.map .frame) .tail)
    (hf : (s.heap a).next.bind (lookupFrom s upage fuel) = some (some f)) :
    f ∈ frames ∧ s.upage f = upage := by
  induction fuel generalizing a frames with
  | zero =>
    obtain ⟨e, -, he⟩ := bind_eq_some_iff.mp hf
    contradiction
  | succ fuel ih =>
    cases frames with
    | nil =>
      rw [show (s.heap a).next = some .tail from hp, bind_some, lookupFrom] at hf
      exact absurd (some.inj hf) nofun
    | cons g frames =>
      rw [hp.1, bind_some, lookupFrom] at hf
      split at hf
      · next hup =>
        obtain rfl : g = f := some.inj (some.inj hf)
        exact ⟨mem_cons_self, hup⟩
      · obtain ⟨hmem, hup⟩ := ih hp.2 hf
        exact ⟨mem_cons_of_mem g hmem, hup⟩

theorem Table.mem_of_lookupFrame (ht : Table s frames)
    (hf : FrameTable.lookupFrame fuel s upage = some (some f)) : f ∈ frames ∧ s.upage f = upage :=
  mem_of_lookupFrom ht.isList.chain.path hf

omit [DecidableEq τ]

theorem table_frameInit (s : FrameSys φ τ) : Table (frameInit s) [] where
  isList := listInit_isList nofun
  mem := by simp [frameInit]

theorem Table.pushBack (ht : Table s frames) (hf : f ∉ frames) :
    ∃ h, listPushBack s.heap .tail (.frame f) = some h ∧
      Table { s with heap := h, created := update s.created f true } (frames ++ [f]) := by
  obtain ⟨h, hpush, hlist⟩ := listPushBack_isList ht.isList (frame_not_mem hf)
  refine ⟨h, hpush, ?_, fun {g} => ?_⟩
  · rwa [map_append]
  · by_cases hg : g = f
    · simp [hg]
    · simp [hg, ht.mem]

theorem Table.delete (before : List φ) {after : List φ} (ht : Table s (before ++ f :: after)) :
    ∃ s', frameDelete s f = some s' ∧ Table s' (before ++ after) := by
  have hlist := ht.isList
  rw [map_append, map_cons] at hlist
  obtain ⟨h, n, hremove, hlist'⟩ := listRemove_isList hlist
  refine ⟨_, by rw [frameDelete, hremove, map_some], ?_, fun {g} => ?_⟩
  · rwa [map_append]
  · change g ∈ before ++ after ↔ update s.created f false g = true
    have hnd := ht.nodup
    by_cases hg : g = f
    · rw [hg, update_self]
      grind
    · rw [update_of_ne hg, ← ht.mem]
      simp [hg]

theorem Table.rotate (ht : Table s (f :: frames)) :
    ∃ h, rotate s.heap f = some h ∧ Table { s with heap := h } (frames ++ [f]) := by
  have hnd := nodup_cons.mp ht.nodup
  have hfirst : IsList s.heap .head .tail ([] ++ .frame f :: frames.map .frame) := ht.isList
  obtain ⟨h₁, n, hremove, hlist⟩ := listRemove_isList hfirst
  obtain ⟨h₂, hpush, hlist'⟩ := listPushBack_isList hlist (frame_not_mem hnd.1)
  refine ⟨h₂, by rw [FrameTable.rotate, hremove, bind_some, hpush], ?_, fun {g} => ?_⟩
  · rwa [map_append]
  · rw [← ht.mem]
    simp [or_comm]

end Primitives

/-- The first frame is chosen, with its accessed bit clear or cleared. -/
theorem secondChance_frame (s : FrameSys φ τ) (f : φ) (fuel : Nat) :
    secondChance (.frame f) (fuel + 2) s = (rotate s.heap f).map fun h =>
      ({ s with
        heap := h
        accessed := pagedirSetAccessed s.accessed (s.ownerThread f) (s.upage f) false }, some f) := by
  by_cases ha : s.accessed (s.ownerThread f) (s.upage f) = true
  · rw [secondChance, if_pos ha, secondChance, if_neg (by simp [pagedirSetAccessed])]
  · have hsame : pagedirSetAccessed s.accessed (s.ownerThread f) (s.upage f) false = s.accessed := by
      rw [pagedirSetAccessed, ← Bool.eq_false_iff.mpr ha, update_eq_self,
        update_eq_self]
    rw [secondChance, if_neg ha, hsame]

/-- `get_frame_to_evict` takes the first frame, whatever the accessed bits are. -/
theorem getFrameToEvict_of_next (hnext : (s.heap .head).next = some (.frame f))
    (hrot : rotate s.heap f = some h) :
    getFrameToEvict s = some ({ s with
      heap := h
      accessed := pagedirSetAccessed s.accessed (s.ownerThread f) (s.upage f) false }, some f) := by
  rw [getFrameToEvict, hnext, bind_some, secondChance_frame, hrot, map_some]

theorem Table.getFrameToEvict (ht : Table s (f :: frames)) :
    ∃ s₁, FrameTable.getFrameToEvict s = some (s₁, some f) ∧ Table s₁ (frames ++ [f]) ∧
      s₁.evictable = s.evictable := by
  obtain ⟨h, hrot, ht'⟩ := ht.rotate
  exact ⟨_, getFrameToEvict_of_next ht.isList.chain.1 hrot, ht'.congr rfl rfl, rfl⟩

theorem Table.getFrameToEvict_nil (ht : Table s []) :
    FrameTable.getFrameToEvict s = some (s, none) := by
  rw [FrameTable.getFrameToEvict, show (s.heap .head).next = some .tail from ht.isList.chain.1,
    bind_some, secondChance]

theorem evictLoop_of_evictable (hev : s.evictable f = true) (fuel : Nat) :
    evictLoop (fuel + 1) s f = some (s, f) := by
  rw [evictLoop, if_pos hev]

theorem frameEvict_of_get (hget : getFrameToEvict s = some (s₁, some f))
    (fuel : Nat) : frameEvict fuel s = (evictLoop fuel s₁ f).bind fun r => frameDelete r.1 r.2 := by
  rw [frameEvict, hget, bind_some, bind_some]

/-- Only links and accessed bits have changed. -/
structure Rearranged (s s' : FrameSys φ τ) : Prop where
  upage : s'.upage = s.upage
  ownerThread : s'.ownerThread = s.ownerThread
  num : s'.num = s.num
  created : s'.created = s.created

theorem Rearranged.trans {s₂ : FrameSys φ τ} (h : Rearranged s s₁) (h' : Rearranged s₁ s₂) :
    Rearranged s s₂ where
  upage := h'.upage.trans h.upage
  ownerThread := h'.ownerThread.trans h.ownerThread
  num := h'.num.trans h.num
  created := h'.created.trans h.created

theorem secondChance_rearranged {e : TableNode φ}
    (hr : secondChance e fuel s = some r) : Rearranged s r.1 := by
  induction fuel generalizing s with
  | zero => contradiction
  | succ fuel ih =>
    cases e with
    | head => contradiction
    | tail =>
      cases hr
      exact ⟨rfl, rfl, rfl, rfl⟩
    | frame f =>
      rw [secondChance] at hr
      split at hr
      · exact { ih hr with }
      · obtain ⟨h, -, rfl⟩ := map_eq_some_iff.mp hr
        exact ⟨rfl, rfl, rfl, rfl⟩

theorem getFrameToEvict_rearranged (hr : getFrameToEvict s = some r) : Rearranged s r.1 := by
  obtain ⟨e, -, he⟩ := bind_eq_some_iff.mp hr
  exact secondChance_rearranged he

theorem evictLoop_rearranged {r : FrameSys φ τ × φ}
    (hr : evictLoop fuel s f = some r) : Rearranged s r.1 := by
  induction fuel generalizing s f with
  | zero => contradiction
  | succ fuel ih =>
    rw [evictLoop] at hr
    split at hr
    · cases hr
      exact ⟨rfl, rfl, rfl, rfl⟩
    · obtain ⟨h, -, hr⟩ := bind_eq_some_iff.mp hr
      obtain ⟨r₁, hget, hr⟩ := bind_eq_some_iff.mp hr
      obtain ⟨g, -, hr⟩ := bind_eq_some_iff.mp hr
      exact .trans { getFrameToEvict_rearranged hget with } (ih hr)

/-! ## termination -/

/-- The links in the loop of `frame_evict`, with `this_frame = c` at the back:
`next` leads through all frames, `prev` is only right where the loop reads it.
The frames of `rest` have not been rotated yet. -/
structure Rotated (h : Heap (TableNode φ)) (rest done : List φ) (c : φ) : Prop where
  headPrev : (h .head).prev = none
  tailNext : (h .tail).next = none
  path : Path h .head ((rest ++ done).map .frame ++ [.frame c]) .tail
  first : ∀ {z}, (h .head).next = some z → (h z).prev = some .head
  last : (h .tail).prev = some (.frame c)
  linked : (h (.frame c)).prev.isSome
  nodup : (rest ++ done ++ [c]).Nodup

/-- The loop starts with a table that is a list. -/
theorem Table.rotated (ht : Table s (frames ++ [f])) : Rotated s.heap frames [] f := by
  have hc := ht.isList.chain
  rw [map_append, map_singleton] at hc
  constructor
  case headPrev => exact ht.isList.headPrev
  case tailNext => exact ht.isList.tailNext
  case path =>
    have hpath := hc.path
    rwa [← append_nil frames] at hpath
  case first =>
    intro z hz
    cases frames with
    | nil =>
      obtain rfl : TableNode.frame f = z := some.inj (hc.1.symm.trans hz)
      exact hc.2.1
    | cons y ys =>
      obtain rfl : TableNode.frame y = z := some.inj (hc.1.symm.trans hz)
      exact hc.2.1
  case last => exact (chain_append_cons.mp hc).2.2
  case linked =>
    obtain ⟨p, hp⟩ := (chain_append_cons.mp hc).1.exists_prev
    rw [hp]
    rfl
  case nodup =>
    rw [append_nil]
    exact ht.nodup

/-- Another round: the frame at the back is linked a second time, and the next
frame of `rest` mends its `next` when it comes to the back itself. -/
theorem Rotated.rotate (hr : Rotated h (y :: ys) done c) :
    ∃ h', rotate (insertBetween h (.frame c) .tail (.frame c)) y = some h' ∧
      (h' (.frame y)).prev = some (.frame c) ∧ Rotated h' ys (done ++ [c]) y := by
  have hyc : TableNode.frame y ≠ .frame c := by
    have hnd := hr.nodup
    grind
  have hpath : Path h (.frame y) ((ys ++ done).map .frame ++ [.frame c]) .tail := hr.path.2
  obtain ⟨m, hm⟩ : ∃ m, (h (.frame y)).next = some (.frame m) := by
    cases hrest : ys ++ done with
    | nil =>
      rw [hrest] at hpath
      exact ⟨c, hpath.1⟩
    | cons z zs =>
      rw [hrest] at hpath
      exact ⟨z, hpath.1⟩
  let h₁ := insertBetween h (.frame c) .tail (.frame c)
  let h₂ := bridge h₁ .head (.frame m)
  let h₃ := insertBetween h₂ (.frame c) .tail (.frame y)
  have hremove : listRemove h₁ (.frame y) = some (h₂, .frame m) := by
    refine listRemove_of_links ?_ ?_
    · rw [insertBetween_prev, if_neg nofun, if_neg hyc, hr.first hr.path.1]
    · rw [insertBetween_next, if_neg hyc, if_neg hyc, hm]
  have hpush : listPushBack h₂ .tail (.frame y) = some h₃ := by
    refine listPushBack_of_prev ?_ _
    rw [bridge_prev, if_neg nofun, insertBetween_prev, if_pos rfl]
  have hnext : ∀ z, z ≠ .head → z ≠ .frame c → z ≠ .frame y → (h₃ z).next = (h z).next := by
    intro z hz hzc hzy
    rw [insertBetween_next, if_neg hzc, if_neg hzy, bridge_next, if_neg hz, insertBetween_next,
      if_neg hzc, if_neg hzc]
  have hbegin : (h₃ .head).next = some (.frame m) := by
    rw [insertBetween_next, if_neg nofun, if_neg nofun, bridge_next, if_pos rfl]
  have hyprev : (h₃ (.frame y)).prev = some (.frame c) := by
    rw [insertBetween_prev, if_neg nofun, if_pos rfl]
  refine ⟨h₃, by rw [FrameTable.rotate, hremove, bind_some, hpush], hyprev, ?_⟩
  constructor
  case headPrev =>
    rw [insertBetween_prev, if_neg nofun, if_neg nofun, bridge_prev, if_neg nofun,
      insertBetween_prev, if_neg nofun, if_neg nofun, hr.headPrev]
  case tailNext => rw [hnext .tail nofun nofun nofun, hr.tailNext]
  case path =>
    have hnodes : (ys ++ (done ++ [c])).map TableNode.frame ++ [.frame y] =
        (ys ++ done).map .frame ++ .frame c :: [.frame y] := by simp
    rw [hnodes, path_append_cons]
    refine ⟨(path_append_cons.mp hpath).1.congr ?_ fun z hz => ?_, ?_, ?_⟩
    · rw [hm, hbegin]
    · obtain ⟨w, hw, rfl⟩ := List.mem_map.mp hz
      have hnd := hr.nodup
      exact hnext _ nofun (by grind) (by grind)
    · rw [insertBetween_next, if_pos rfl]
    · change (h₃ (.frame y)).next = some .tail
      rw [insertBetween_next, if_neg hyc, if_pos rfl]
  case first =>
    intro z hz
    obtain rfl : TableNode.frame m = z := some.inj (hbegin.symm.trans hz)
    have hmy : TableNode.frame m ≠ .frame y := by
      have hnd := hr.nodup
      have hmem := hpath.next_mem hm
      grind
    rw [insertBetween_prev, if_neg nofun, if_neg hmy, bridge_prev, if_pos rfl]
  case last => rw [insertBetween_prev, if_pos rfl]
  case linked =>
    rw [hyprev]
    rfl
  case nodup =>
    have hnd := hr.nodup
    grind

theorem Rotated.round (hr : Rotated s.heap (y :: ys) done c)
    (hc : s.evictable c = false) : ∃ s₁ : FrameSys φ τ,
      (∀ fuel, evictLoop (fuel + 1) s c = evictLoop fuel s₁ y) ∧ s₁.evictable = s.evictable ∧
      s₁.created = s.created ∧ (s₁.heap (.frame y)).prev = some (.frame c) ∧
      Rotated s₁.heap ys (done ++ [c]) y := by
  obtain ⟨h', hrot, hprev, hr'⟩ := hr.rotate
  have hbegin : (insertBetween s.heap (.frame c) .tail (.frame c) .head).next =
      some (.frame y) := by
    rw [insertBetween_next, if_neg nofun, if_neg nofun]
    exact hr.path.1
  have hget := getFrameToEvict_of_next
    (s := { s with heap := insertBetween s.heap (.frame c) .tail (.frame c) }) hbegin hrot
  refine ⟨{ s with
    heap := h'
    accessed := pagedirSetAccessed s.accessed (s.ownerThread y) (s.upage y) false },
    fun fuel => ?_, rfl, rfl, hprev, hr'⟩
  rw [evictLoop, hc, if_neg Bool.false_ne_true, listPushBack_of_prev hr.last, bind_some,
    hget, bind_some, bind_some]

/-- Enough rounds get to the first frame that is not rejected. -/
theorem Rotated.evictLoop {rest : List φ} (hr : Rotated s.heap rest done c)
    (hv : ∃ v ∈ c :: rest, s.evictable v = true) :
    ∃ s' v, evictLoop (rest.length + 1) s c = some (s', v) ∧
      ∃ rest' done', Rotated s'.heap rest' done' v := by
  induction rest generalizing s done c with
  | nil =>
    obtain ⟨v, hmem, hev⟩ := hv
    rw [mem_singleton.mp hmem] at hev
    exact ⟨s, c, evictLoop_of_evictable hev _, [], done, hr⟩
  | cons y ys ih =>
    cases hc : s.evictable c with
    | true => exact ⟨s, c, evictLoop_of_evictable hc _, y :: ys, done, hr⟩
    | false =>
      obtain ⟨s₁, hround, hsame, -, -, hr'⟩ := hr.round hc
      obtain ⟨v, hmem, hev⟩ := hv
      have hne : v ≠ c := by
        rintro rfl
        cases hc.symm.trans hev
      obtain ⟨s', w, hloop, hdone⟩ := ih hr'
        ⟨v, (mem_cons.mp hmem).resolve_left hne, hsame ▸ hev⟩
      exact ⟨s', w, by rw [length_cons, hround, hloop], hdone⟩

/-- **`frame_evict` returns** when the table is a list with a user, non-stack page. -/
theorem Table.exists_frameEvict (ht : Table s frames)
    (hv : ∃ v, s.created v = true ∧ s.evictable v = true) :
    ∃ fuel s', frameEvict fuel s = some s' := by
  obtain ⟨v, hc, hev⟩ := hv
  have hmem : v ∈ frames := ht.mem.mpr hc
  cases frames with
  | nil => contradiction
  | cons x xs =>
    obtain ⟨s₁, hget, ht₁, hsame⟩ := ht.getFrameToEvict
    obtain ⟨s', w, hloop, rest, done, hr⟩ := ht₁.rotated.evictLoop ⟨v, hmem, hsame ▸ hev⟩
    obtain ⟨p, hp⟩ := isSome_iff_exists.mp hr.linked
    have hn : (s'.heap (.frame w)).next = some .tail := (path_append_cons.mp hr.path).2
    obtain ⟨s'', hdelete⟩ : ∃ s'', frameDelete s' w = some s'' := by
      rw [frameDelete, listRemove_of_links hp hn]
      exact ⟨_, rfl⟩
    refine ⟨xs.length + 1, s'', ?_⟩
    rw [frameEvict_of_get hget, hloop, bind_some, hdelete]

/-! ## the table that is not a list -/

theorem Table.prev_ne (ht : Table s frames) (hf : s.created f = true) :
    (s.heap (.frame f)).prev ≠ some (.frame f) := by
  intro hself
  obtain ⟨before, after, rfl⟩ := append_of_mem (ht.mem.mpr hf)
  have hc := ht.isList.chain
  rw [map_append, map_cons] at hc
  have hmem := (chain_append_cons.mp hc).1.prev_mem hself
  have hnd := ht.nodup
  grind

/-- No frame, and the boundary of a process with one stack page. -/
def emptyTable : FrameSys Nat Unit where
  heap _ := ⟨none, none⟩
  upage _ := 0
  ownerThread _ := ()
  accessed _ _ := false
  num := 2
  created _ := false

/-- The stack page of a process is in front of two other pages.  The eviction
leaves it as its own predecessor. -/
theorem frame_evict_links_stack_page_twice :
    ∃ s : FrameSys Nat Unit, (frameMachine Nat Unit).runFrom (frameInit emptyTable)
      [.create 0 () 0xbffff000 false 0, .create 1 () 0x8048000 false 0,
        .create 2 () 0x8049000 false 0, .evict 2] = some s ∧
      (frameMachine Nat Unit).Reach s ∧ s.created 0 = true ∧ s.created 1 = false ∧
      (s.heap (.frame 0)).prev = some (.frame 0) ∧ ¬ TableIntact s := by
  obtain ⟨s, hrun, hs, h0, h1, hself⟩ := Machine.exists_reach_of_runFrom
    (m := frameMachine Nat Unit) ⟨emptyTable, rfl⟩
    [.create 0 () 0xbffff000 false 0, .create 1 () 0x8048000 false 0,
      .create 2 () 0x8049000 false 0, .evict 2]
    (fun s => s.created 0 = true ∧ s.created 1 = false ∧ (s.heap (.frame 0)).prev = some (.frame 0))
    (by decide +kernel)
  refine ⟨s, hrun, hs, h0, h1, hself, fun hintact => ?_⟩
  obtain ⟨frames, ht, -⟩ := hintact.list
  exact ht.prev_ne h0 hself

/-! ## evictions that keep the list -/

/-- The first frame of the table is a user, non-stack page, or there are two
frames of which the second is. -/
def FrameSys.cleanFirst (s : FrameSys φ τ) : Bool :=
  match (s.heap .head).next with
  | some (.frame f) =>
    s.evictable f ||
      match (s.heap (.frame f)).next with
      | some (.frame g) => s.evictable g && (s.heap (.frame g)).next == some .tail
      | _ => false
  | _ => false

/-- `frame_evict` is called when the first frame of the table is a user,
non-stack page, or when there are two frames of which the second is. -/
def CleanEvict (s : FrameSys φ τ) : FrameAct φ τ → Prop
  | .create _ _ _ full _ => full = true → s.cleanFirst = true
  | .evict _ => s.cleanFirst = true
  | _ => True

instance (s : FrameSys φ τ) : ∀ a, Decidable (CleanEvict s a) := by
  rintro ⟨⟩ <;> unfold CleanEvict <;> infer_instance

/-- The first frame of the table when it is a user, non-stack page, and the second when
there are two of which only the second is. -/
def candidate (s : FrameSys φ τ) : Option φ :=
  match (s.heap .head).next with
  | some (.frame f) =>
    if s.evictable f then
      some f
    else
      match (s.heap (.frame f)).next with
      | some (.frame g) =>
        match (s.heap (.frame g)).next with
        | some .tail => if s.evictable g then some g else none
        | _ => none
      | _ => none
  | _ => none

theorem cleanFirst_eq (s : FrameSys φ τ) : s.cleanFirst = (candidate s).isSome := by
  unfold cleanFirst candidate
  split
  · next f hf =>
    cases s.evictable f with
    | true => rfl
    | false =>
      rw [Bool.false_or, if_neg Bool.false_ne_true]
      split
      · next g hg =>
        split
        · next hend => cases s.evictable g <;> simp [hend]
        · next hend => rw [beq_false_of_ne hend, Bool.and_false, isSome_none]
      · rfl
  · rfl

/-- `v` is the first frame and is not rejected, or the second of two of which the first is. -/
def Clean (s : FrameSys φ τ) (frames : List φ) (v : φ) : Prop :=
  (∃ rest, frames = v :: rest ∧ s.evictable v = true) ∨
    ∃ x, frames = [x, v] ∧ s.evictable x = false ∧ s.evictable v = true

theorem Clean.congr (hc : Clean s frames f) (hsame : ∀ x ∈ frames, s'.evictable x = s.evictable x) :
    Clean s' frames f := by
  rcases hc with ⟨xs, rfl, hx⟩ | ⟨x, rfl, hx, hy⟩
  · exact .inl ⟨xs, rfl, by rw [hsame f (by simp), hx]⟩
  · exact .inr ⟨x, rfl, by rw [hsame x (by simp), hx], by rw [hsame f (by simp), hy]⟩

theorem Clean.mem (hc : Clean s frames f) : f ∈ frames := by
  rcases hc with ⟨rest, rfl, -⟩ | ⟨x, rfl, -⟩
  · exact mem_cons_self
  · exact mem_cons_of_mem x mem_cons_self

theorem Table.clean_of_candidate (ht : Table s frames) (hc : candidate s = some f) :
    Clean s frames f := by
  have hchain := ht.isList.chain
  unfold candidate at hc
  cases frames with
  | nil =>
    rw [show (s.heap .head).next = some .tail from hchain.1] at hc
    contradiction
  | cons x xs =>
    rw [show (s.heap .head).next = some (.frame x) from hchain.1] at hc
    simp only at hc
    split at hc
    · next hx =>
      cases hc
      exact .inl ⟨xs, rfl, hx⟩
    · next hx =>
      cases xs with
      | nil =>
        rw [show (s.heap (.frame x)).next = some .tail from hchain.2.2.1] at hc
        contradiction
      | cons y ys =>
        rw [show (s.heap (.frame x)).next = some (.frame y) from hchain.2.2.1] at hc
        simp only at hc
        cases ys with
        | nil =>
          rw [show (s.heap (.frame y)).next = some .tail from hchain.2.2.2.2.1] at hc
          obtain ⟨hy, rfl⟩ := of_guard hc
          exact .inr ⟨x, rfl, Bool.eq_false_iff.mpr hx, hy⟩
        | cons z zs =>
          rw [show (s.heap (.frame y)).next = some (.frame z) from hchain.2.2.2.2.1] at hc
          contradiction

theorem Table.clean (ht : Table s frames) (hc : s.cleanFirst = true) : ∃ v, Clean s frames v := by
  rw [cleanFirst_eq] at hc
  obtain ⟨v, hv⟩ := isSome_iff_exists.mp hc
  exact ⟨v, ht.clean_of_candidate hv⟩

/-- Two frames of which the first is rejected come out as a list again. -/
theorem Rotated.isList_pair (hr : Rotated h [] [c] y)
    (hy : (h (.frame y)).prev = some (.frame c)) : IsList h .head .tail [.frame c, .frame y] where
  headPrev := hr.headPrev
  tailNext := hr.tailNext
  chain := ⟨hr.path.1, hr.first hr.path.1, hr.path.2.1, hy, hr.path.2.2, hr.last⟩
  nodup := by
    have hnd := hr.nodup
    simpa using hnd

theorem eq_of_evictLoop {r : FrameSys φ τ × φ} (hev : s.evictable f = true)
    (hr : evictLoop fuel s f = some r) : r = (s, f) := by
  cases fuel with
  | zero => contradiction
  | succ fuel =>
    rw [evictLoop_of_evictable hev] at hr
    exact (some.inj hr).symm

/-- `frame_evict` gets to `v`, and the table is a list then. -/
theorem Table.choose {v : φ} (ht : Table s frames) (hc : Clean s frames v) :
    ∃ x s₁ frames₁ s₂ before after, FrameTable.getFrameToEvict s = some (s₁, some x) ∧
      Table s₁ frames₁ ∧ Table s₂ (before ++ v :: after) ∧ (∀ f ∈ before ++ after, f ∈ frames) ∧
      ∀ {fuel r}, FrameTable.evictLoop fuel s₁ x = some r → r = (s₂, v) := by
  rcases hc with ⟨rest, rfl, hv⟩ | ⟨x, rfl, hx, hv⟩
  · obtain ⟨s₁, hget, ht₁, hsame⟩ := ht.getFrameToEvict
    refine ⟨v, s₁, _, s₁, rest, [], hget, ht₁, ht₁, fun f hf => ?_, eq_of_evictLoop (hsame ▸ hv)⟩
    rw [append_nil] at hf
    exact mem_cons_of_mem v hf
  · obtain ⟨s₁, hget, ht₁, hsame₁⟩ := ht.getFrameToEvict
    obtain ⟨s₂, hround, hsame₂, hcreated, hprev, hr⟩ := ht₁.rotated.round (hsame₁ ▸ hx)
    refine ⟨x, s₁, _, s₂, [x], [], hget, ht₁, ⟨hr.isList_pair hprev, fun {f} => ?_⟩,
      fun f hf => mem_cons.mpr (.inl (mem_singleton.mp hf)), fun {fuel r} hloop => ?_⟩
    · rw [hcreated, ← ht₁.mem]
      simp [or_comm]
    · cases fuel with
      | zero => contradiction
      | succ fuel =>
        rw [hround] at hloop
        exact eq_of_evictLoop (hsame₂ ▸ hsame₁ ▸ hv) hloop

/-- **Step lemma** for `frame_evict`. -/
theorem Table.frameEvict (ht : Table s frames) (hc : Clean s frames f)
    (hs : FrameTable.frameEvict fuel s = some s') :
    ∃ frames', Table s' frames' ∧ ∀ f ∈ frames', f ∈ frames := by
  obtain ⟨x, s₁, -, s₂, before, after, hget, -, ht₂, hsub, hloop⟩ := ht.choose hc
  rw [frameEvict_of_get hget] at hs
  obtain ⟨r, hr, hs⟩ := bind_eq_some_iff.mp hs
  obtain rfl := hloop hr
  obtain ⟨s₃, hdelete, ht₃⟩ := ht₂.delete before
  cases hdelete.symm.trans hs
  exact ⟨_, ht₃, hsub⟩

/-- **Step lemma**. -/
theorem Table.step {a : FrameAct φ τ} (ht : Table s frames) (hc : CleanEvict s a)
    (hs : frameStep s a = some s') : ∃ frames', Table s' frames' := by
  cases a with
  | create f t upage full fuel =>
    simp only [frameStep] at hs
    split at hs
    · contradiction
    · next hf =>
      have hfresh : f ∉ frames := fun hm => hf (ht.mem.mp hm)
      obtain ⟨s₁, hs₁, hpush⟩ := bind_eq_some_iff.mp hs
      obtain ⟨h, hh, rfl⟩ := map_eq_some_iff.mp hpush
      obtain ⟨frames₁, ht₁, hsub⟩ : ∃ frames₁, Table s₁ frames₁ ∧ ∀ g ∈ frames₁, g ∈ frames := by
        split at hs₁
        · next hfull =>
          have ht₀ : Table { s with
              upage := update s.upage f upage
              ownerThread := update s.ownerThread f t } frames := ht.congr rfl rfl
          obtain ⟨v, hv⟩ := ht.clean (hc hfull)
          refine ht₀.frameEvict (hv.congr fun x hx => ?_) hs₁
          have hxf : x ≠ f := fun heq => hfresh (heq ▸ hx)
          simp only [evictable, update_of_ne hxf]
        · exact ⟨frames, some.inj hs₁ ▸ ht.congr rfl rfl, fun _ hg => hg⟩
      obtain ⟨h', hh', ht'⟩ := ht₁.pushBack fun hm => hfresh (hsub f hm)
      obtain rfl : h' = h := some.inj (hh'.symm.trans hh)
      exact ⟨_, ht'⟩
  | delete f =>
    simp only [frameStep] at hs
    split at hs
    · next hf =>
      obtain ⟨before, after, rfl⟩ := append_of_mem (ht.mem.mpr hf)
      obtain ⟨s₁, hdelete, ht'⟩ := ht.delete before
      obtain rfl : s₁ = s' := some.inj (hdelete.symm.trans hs)
      exact ⟨_, ht'⟩
    · contradiction
  | evict fuel =>
    obtain ⟨v, hv⟩ := ht.clean hc
    obtain ⟨frames', ht', -⟩ := ht.frameEvict hv hs
    exact ⟨frames', ht'⟩
  | pick =>
    obtain ⟨r, hget, rfl⟩ := map_eq_some_iff.mp hs
    cases frames with
    | nil =>
      rw [ht.getFrameToEvict_nil] at hget
      exact ⟨[], some.inj hget ▸ ht⟩
    | cons f frames =>
      obtain ⟨s₁, hget', ht₁, -⟩ := ht.getFrameToEvict
      obtain rfl : (s₁, some f) = r := some.inj (hget'.symm.trans hget)
      exact ⟨_, ht₁⟩
  | setAccessed t upage b | setNum num =>
    cases hs
    exact ⟨frames, ht.congr rfl rfl⟩

/-- **The table stays a list**, and `frame_evict` returns when there is a frame to
evict, in every run in which it is called with such a frame in front. -/
theorem frame_table_intact_of_cleanEvict (s : FrameSys φ τ)
    (h : (frameMachine φ τ).ReachIn CleanEvict s) :
    TableIntact s ∧
      ((∃ v, s.created v = true ∧ s.evictable v = true) → ∃ fuel s', frameEvict fuel s = some s') := by
  obtain ⟨frames, ht⟩ := h.invariant (I := fun s => ∃ frames, Table s frames)
    (fun _ ⟨s₀, h₀⟩ => ⟨[], h₀ ▸ table_frameInit s₀⟩)
    fun _ _ _ ⟨_, ht⟩ hc hs => ht.step hc hs
  exact ⟨ht.intact, ht.exists_frameEvict⟩

/-- The stack page of a process and two more: the stack page comes up in front
after the first eviction, and is the second of two frames then. -/
theorem frame_table_intact_of_cleanEvict_stack :
    ∃ s : FrameSys Nat Unit, s.created 0 = false ∧ s.created 1 = true ∧ s.created 3 = true ∧
      TableIntact s ∧ ∃ fuel s', frameEvict fuel s = some s' := by
  obtain ⟨s, -, hs, h0, h1, h3, hev⟩ := Machine.exists_reachIn_of_runIn (m := frameMachine Nat Unit)
    (C := CleanEvict) ⟨emptyTable, rfl⟩
    [.create 0 () 0x8048000 false 0, .create 1 () 0xbffff000 false 0,
      .create 2 () 0x8049000 false 0, .setAccessed () 0x8048000 true, .evict 1,
      .create 3 () 0x804a000 true 2]
    (fun s => s.created 0 = false ∧ s.created 1 = true ∧ s.created 3 = true ∧ s.evictable 3 = true)
    (by decide +kernel)
  obtain ⟨hintact, hreturns⟩ := frame_table_intact_of_cleanEvict s hs
  exact ⟨s, h0, h1, h3, hintact, hreturns ⟨3, h3, hev⟩⟩

/-! ## second chance -/

/-- The accessed bit of a frame. -/
def FrameSys.bit (s : FrameSys φ τ) (f : φ) : Bool := s.accessed (s.ownerThread f) (s.upage f)

/-- The frames are of the same page of the same process, and share its accessed bit. -/
def FrameSys.SamePage (s : FrameSys φ τ) (f g : φ) : Prop :=
  s.ownerThread f = s.ownerThread g ∧ s.upage f = s.upage g

/-- The choice of second chance: the first frame whose bit is clear, or else the first frame. -/
def FrameSys.victim (s : FrameSys φ τ) (frames : List φ) : Option φ :=
  (frames.find? fun f => !s.bit f).or frames.head?

/-- The frames that second chance passes over: those before the first whose bit is clear. -/
def FrameSys.passedOver (s : FrameSys φ τ) (frames : List φ) : List φ := frames.takeWhile s.bit

/-- `get_frame_to_evict` makes this choice. -/
def Chooses (s : FrameSys φ τ) (frames : List φ) : Prop :=
  ∃ s', getFrameToEvict s = some (s', s.victim frames)

/-- It makes this choice, and clears the bits of the frames that are passed over and no others. -/
def SecondChance (s : FrameSys φ τ) (frames : List φ) : Prop :=
  ∃ s', getFrameToEvict s = some (s', s.victim frames) ∧
    ∀ g ∈ frames, s'.bit g = (s.bit g && !decide (g ∈ s.passedOver frames))

/-- `get_frame_to_evict` returns the first frame and clears the bit of its page. -/
theorem Table.getFrameToEvict_bit (ht : Table s (f :: frames)) :
    ∃ s', FrameTable.getFrameToEvict s = some (s', some f) ∧
      ∀ g, s'.bit g = true ↔ s.bit g = true ∧ ¬ s.SamePage g f := by
  obtain ⟨h, hrot, -⟩ := ht.rotate
  refine ⟨_, getFrameToEvict_of_next ht.isList.chain.1 hrot, fun g => ?_⟩
  unfold bit SamePage pagedirSetAccessed
  by_cases howner : s.ownerThread g = s.ownerThread f
  · by_cases hpage : s.upage g = s.upage f
    · simp [howner, hpage]
    · simp [howner, hpage]
  · simp [howner]

/-- The first frame is the choice when its bit is clear, or when all are set. -/
theorem victim_eq_head_iff (hnot : f ∉ frames) :
    s.victim (f :: frames) = some f ↔ s.bit f = false ∨ ∀ g ∈ frames, s.bit g = true := by
  unfold victim
  cases hbit : s.bit f with
  | false => simp [hbit]
  | true =>
    cases hfind : frames.find? fun g => !s.bit g with
    | none =>
      have hall : ∀ g ∈ frames, s.bit g = true := by simpa using hfind
      simpa [hbit, hfind] using hall
    | some g =>
      have hg := mem_of_find?_eq_some hfind
      have hclear : s.bit g = false := by simpa using find?_some hfind
      have hne : g ≠ f := fun heq => hnot (heq ▸ hg)
      have hnall : ¬ ∀ g ∈ frames, s.bit g = true := fun hall => by
        rw [hall g hg] at hclear
        contradiction
      simp [hbit, hfind, hne, hnall]

/-- **The choice is that of second chance exactly when** the bit of the first frame is clear or all
bits are set; **the bits are too exactly when** it is clear or all frames are of one page. -/
theorem second_chance_iff (ht : Table s (f :: frames)) :
    (Chooses s (f :: frames) ↔ s.bit f = false ∨ ∀ g ∈ frames, s.bit g = true) ∧
    (SecondChance s (f :: frames) ↔ s.bit f = false ∨ ∀ g ∈ frames, s.SamePage g f) := by
  obtain ⟨s', hget, hbits⟩ := ht.getFrameToEvict_bit
  have hvictim := victim_eq_head_iff (s := s) (nodup_cons.mp ht.nodup).1
  have hchoice : ∀ s₁, getFrameToEvict s = some (s₁, s.victim (f :: frames)) ↔
      s₁ = s' ∧ s.victim (f :: frames) = some f := fun s₁ => by
    rw [hget, some.injEq, Prod.mk.injEq, eq_comm, eq_comm (a := some f)]
  have hsame : ∀ g, s.SamePage g f → s.bit g = s.bit f := fun g hg => by
    rw [bit, bit, hg.1, hg.2]
  refine ⟨?_, ?_⟩
  · simp only [Chooses, hchoice, exists_eq_left, hvictim]
  · simp only [SecondChance, hchoice, and_assoc, exists_eq_left, hvictim]
    cases hbit : s.bit f with
    | false =>
      refine iff_of_true ⟨.inl rfl, fun g _ => Bool.eq_iff_iff.mpr ?_⟩ (.inl rfl)
      have hpage : s.bit g = true → ¬ s.SamePage g f := fun hg hp => by
        rw [hsame g hp, hbit] at hg
        contradiction
      simpa [hbits, passedOver, hbit] using hpage
    | true =>
      simp only [Bool.true_eq_false, false_or]
      refine ⟨fun ⟨hall, hcleared⟩ g hg => ?_, fun hpages => ?_⟩
      · -- all frames are passed over, so that the bit of `g` is cleared with that of `f`
        have hover : s.passedOver (f :: frames) = f :: frames :=
          takeWhile_eq_self_iff.mpr (forall_mem_cons.mpr ⟨hbit, hall⟩)
        have hclear := hcleared g (mem_cons_of_mem f hg)
        rw [hover, hall g hg, decide_eq_true (mem_cons_of_mem f hg)] at hclear
        by_contra hne
        exact Bool.noConfusion (hclear.symm.trans ((hbits g).mpr ⟨hall g hg, hne⟩))
      · have hall : ∀ g ∈ f :: frames, s.bit g = true :=
          forall_mem_cons.mpr ⟨hbit, fun g hg => (hsame g (hpages g hg)).trans hbit⟩
        have hover : s.passedOver (f :: frames) = f :: frames :=
          takeWhile_eq_self_iff.mpr hall
        refine ⟨fun g hg => hall g (mem_cons_of_mem f hg), fun g hg => ?_⟩
        have hpage : s.SamePage g f := by
          rcases mem_cons.mp hg with rfl | hg
          · exact ⟨rfl, rfl⟩
          · exact hpages g hg
        rw [hover, decide_eq_true hg, Bool.not_true, Bool.and_false, ← Bool.not_eq_true, hbits]
        exact fun hnot => hnot.2 hpage

/-- Frames 0 and 1, of two pages; the accessed bit of the first is set. -/
theorem exists_twoFrames : ∃ s : FrameSys Nat Unit, Table s [0, 1] ∧ s.bit 0 = true ∧
    s.bit 1 = false := by
  let s₀ : FrameSys Nat Unit := { emptyTable with
    upage := fun f => if f = 0 then 0x8048000 else 0x8049000
    accessed := fun _ page => page = 0x8048000 }
  obtain ⟨h₁, -, ht₁⟩ := (table_frameInit s₀).pushBack (f := 0) not_mem_nil
  obtain ⟨h₂, -, ht₂⟩ := ht₁.pushBack (f := 1) (by decide)
  exact ⟨_, ht₂, rfl, rfl⟩

/-- The second frame has not been accessed, and the first is chosen. -/
theorem second_chance_skips_none :
    ∃ (s : FrameSys Nat Unit) (frames : List Nat), Table s frames ∧ frames ≠ [] ∧
      ¬ Chooses s frames := by
  obtain ⟨s, ht, hset, hclear⟩ := exists_twoFrames
  obtain ⟨s', hget, -⟩ := ht.getFrameToEvict_bit
  refine ⟨s, [0, 1], ht, nofun, fun ⟨s₁, hchoose⟩ => ?_⟩
  have hvictim : s.victim [0, 1] = some 1 := by simp [victim, hset, hclear]
  rw [hget, hvictim] at hchoose
  cases hchoose

/-- The choice for these frames is not that of second chance. -/
theorem second_chance_two_frames :
    ∃ s : FrameSys Nat Unit, Table s [0, 1] ∧ ¬ Chooses s [0, 1] ∧ ¬ SecondChance s [0, 1] := by
  obtain ⟨s, ht, hset, hclear⟩ := exists_twoFrames
  have hiff := second_chance_iff ht
  refine ⟨s, ht, hiff.1.not.mpr ?_, hiff.2.not.mpr ?_⟩
  · simp [hset, hclear]
  · have hpage : ¬ s.SamePage 1 0 := fun hp => by
      have hbit : s.bit 1 = s.bit 0 := by rw [bit, bit, hp.1, hp.2]
      rw [hset, hclear] at hbit
      contradiction
    simp [hset, hpage]

end Pintos.FrameTable
