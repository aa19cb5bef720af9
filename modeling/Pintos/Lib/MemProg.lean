import Mathlib

/-!
# Pintos.Lib.MemProg

Programs that read and write a paged memory which is not theirs.

A `Prog` is a tree of loads, stores and probes.  A `Guard` says what becomes of
them: an access at or above `limit` is an *escape*, an access below it that the
guard does not allow is a *fault*, and any other access brings in the page it is
on.  A probe answers whether the page of an address is resident.  `exec` runs a
program to its `Outcome`.

`Ends` is the weakest precondition for `exec`: besides a postcondition it has a
`Permit`, which says what the program may run into on its way.  There is one rule
for each construction, and one for each of the loops that read a range, write a
range, look for the end of a string and compare two strings.  Two runs that are
permitted nothing but hits end alike (`visible_eq_of_clear`).
-/

namespace MemProg

open Function

variable {β σ α γ : Type}

/-! ## programs -/

/-- What a program does next; `stop` ends it for good. -/
inductive Prog (β σ α : Type)
  | ret (a : α)
  | stop (x : σ)
  | probe (p : Nat) (k : Bool → Prog β σ α)
  | load (p : Nat) (k : β → Prog β σ α)
  | store (p : Nat) (b : β) (k : Prog β σ α)

namespace Prog

def bind : Prog β σ α → (α → Prog β σ γ) → Prog β σ γ
  | .ret a, f => f a
  | .stop x, _ => .stop x
  | .probe p k, f => .probe p fun b => (k b).bind f
  | .load p k, f => .load p fun b => (k b).bind f
  | .store p b k, f => .store p b (k.bind f)

instance : Monad (Prog β σ) where
  pure := .ret
  bind := bind

end Prog

/-- Whether the page of an address is resident. -/
def probe (p : Nat) : Prog β σ Bool := .probe p .ret

/-- One byte is read. -/
def load (p : Nat) : Prog β σ β := .load p .ret

/-- One byte is written. -/
def store (p : Nat) (b : β) : Prog β σ Unit := .store p b (.ret ())

def stop (x : σ) : Prog β σ α := .stop x

/-! ## execution -/

/-- A memory, and which of its pages are resident. -/
structure Mem (β : Type) where
  bytes : Nat → β
  resident : Nat → Bool

namespace Mem

/-- The page `q` comes in. -/
def touch (m : Mem β) (q : Nat) : Mem β :=
  { m with resident := update m.resident q true }

def set (m : Mem β) (p : Nat) (b : β) : Mem β :=
  { m with bytes := update m.bytes p b }

/-- Everything is resident. -/
def full (bytes : Nat → β) : Mem β := ⟨bytes, fun _ => true⟩

end Mem

/-- What happens on an access. -/
structure Guard (σ : Type) where
  limit : Nat
  fault : σ
  page : Nat → Nat
  readable : Nat → Bool
  writable : Nat → Bool

/-- How a program ends: with a result, stopped, or with an access at or above the
limit. -/
inductive Outcome (β σ α : Type)
  | done (a : α) (m : Mem β)
  | stopped (x : σ) (m : Mem β)
  | escaped (p : Nat)

def exec (G : Guard σ) : Prog β σ α → Mem β → Outcome β σ α
  | .ret a, m => .done a m
  | .stop x, m => .stopped x m
  | .probe p k, m => exec G (k (m.resident (G.page p))) m
  | .load p k, m =>
    if G.limit ≤ p then .escaped p
    else if G.readable p then exec G (k (m.bytes p)) (m.touch (G.page p))
    else .stopped G.fault m
  | .store p b k, m =>
    if G.limit ≤ p then .escaped p
    else if G.writable p then exec G k ((m.set p b).touch (G.page p))
    else .stopped G.fault m

/-- What is left of a run when it is over: a program that has been stopped has no
memory any more. -/
inductive Visible (β σ α : Type)
  | done (a : α) (bytes : Nat → β)
  | stopped (x : σ)
  | escaped (p : Nat)

def Outcome.visible : Outcome β σ α → Visible β σ α
  | .done a m => .done a m.bytes
  | .stopped x _ => .stopped x
  | .escaped p => .escaped p

/-! ## weakest preconditions -/

/-- What a program may run into. -/
structure Permit (σ : Type) where
  stop : σ → Prop
  fault : Prop
  escape : Prop
  probe : Bool → Prop

/-- An access to `p` is permitted, with `P` after it; `ok` when the guard allows it. -/
def Permit.Access (X : Permit σ) (G : Guard σ) (p : Nat) (ok : Bool) (P : Prop) : Prop :=
  if G.limit ≤ p then X.escape else if ok then P else X.fault

/-- `q` runs into nothing but what `X` permits, and what it returns satisfies `Q`. -/
def Ends (G : Guard σ) (X : Permit σ) :
    Prog β σ α → Mem β → (α → Mem β → Prop) → Prop
  | .ret a, m, Q => Q a m
  | .stop x, _, _ => X.stop x
  | .probe p k, m, Q => X.probe (m.resident (G.page p)) ∧ Ends G X (k (m.resident (G.page p))) m Q
  | .load p k, m, Q =>
    X.Access G p (G.readable p) (Ends G X (k (m.bytes p)) (m.touch (G.page p)) Q)
  | .store p b k, m, Q =>
    X.Access G p (G.writable p) (Ends G X k ((m.set p b).touch (G.page p)) Q)

variable {G : Guard σ} {X : Permit σ} {m : Mem β} {p n : Nat} {q : Prog β σ α}
  {Q Q' : α → Mem β → Prop} {a : α} {f : α → Prog β σ γ} {m' : Mem β}

/-- A load from `a` is permitted, whatever comes of it. -/
def Permit.Reads (X : Permit σ) (G : Guard σ) (a : Nat) : Prop :=
  (a < G.limit ∨ X.escape) ∧ (G.readable a = true ∨ X.fault)

/-- A store to `a` is permitted, whatever comes of it. -/
def Permit.Writes (X : Permit σ) (G : Guard σ) (a : Nat) : Prop :=
  (a < G.limit ∨ X.escape) ∧ (G.writable a = true ∨ X.fault)

section Access

variable {ok : Bool} {P P' : Prop}

theorem Permit.access (he : p < G.limit ∨ X.escape) (hf : ok = true ∨ X.fault)
    (h : p < G.limit → ok = true → P) : X.Access G p ok P := by
  unfold Access
  split
  · next hp => exact he.resolve_left (by omega)
  · next hp =>
    split
    · next hok => exact h (by omega) hok
    · next hok => exact hf.resolve_left hok

theorem Permit.Access.mono (h : X.Access G p ok P) (hP : P → P') : X.Access G p ok P' := by
  unfold Access at h ⊢
  split
  · next hp => rwa [if_pos hp] at h
  · next hp =>
    rw [if_neg hp] at h
    split
    · next hok =>
      rw [if_pos hok] at h
      exact hP h
    · next hok => rwa [if_neg hok] at h

theorem Permit.Access.cases (h : X.Access G p ok P) :
    (G.limit ≤ p ∧ X.escape) ∨ (¬ G.limit ≤ p ∧ ok = true ∧ P) ∨
      (¬ G.limit ≤ p ∧ ¬ ok = true ∧ X.fault) := by
  unfold Access at h
  split at h
  · next hp => exact .inl ⟨hp, h⟩
  · next hp =>
    split at h
    · next hok => exact .inr (.inl ⟨hp, hok, h⟩)
    · next hok => exact .inr (.inr ⟨hp, hok, h⟩)

end Access

/-- **A run ends as its weakest precondition says.** -/
theorem Ends.exec (h : Ends G X q m Q) :
    (∃ a m', MemProg.exec G q m = .done a m' ∧ Q a m') ∨
      (∃ x m', MemProg.exec G q m = .stopped x m' ∧ (X.stop x ∨ X.fault ∧ x = G.fault)) ∨
      ∃ a, MemProg.exec G q m = .escaped a ∧ X.escape := by
  induction q generalizing m with
  | ret a => exact .inl ⟨a, m, rfl, h⟩
  | stop x => exact .inr (.inl ⟨x, m, rfl, .inl h⟩)
  | probe p k ih => exact ih _ h.2
  | load p k ih =>
    rcases Permit.Access.cases h with ⟨hp, he⟩ | ⟨hp, hr, h⟩ | ⟨hp, hr, hf⟩
    · exact .inr (.inr ⟨p, if_pos hp, he⟩)
    · simp only [MemProg.exec, if_neg hp, if_pos hr]
      exact ih _ h
    · simp only [MemProg.exec, if_neg hp, if_neg hr]
      exact .inr (.inl ⟨G.fault, m, rfl, .inr ⟨hf, rfl⟩⟩)
  | store p b k ih =>
    rcases Permit.Access.cases h with ⟨hp, he⟩ | ⟨hp, hw, h⟩ | ⟨hp, hw, hf⟩
    · exact .inr (.inr ⟨p, if_pos hp, he⟩)
    · simp only [MemProg.exec, if_neg hp, if_pos hw]
      exact ih h
    · simp only [MemProg.exec, if_neg hp, if_neg hw]
      exact .inr (.inl ⟨G.fault, m, rfl, .inr ⟨hf, rfl⟩⟩)

theorem Ends.mono (h : Ends G X q m Q) (hQ : ∀ a m, Q a m → Q' a m) : Ends G X q m Q' := by
  induction q generalizing m with
  | ret a => exact hQ a m h
  | stop x => exact h
  | probe p k ih => exact ⟨h.1, ih _ h.2⟩
  | load p k ih => exact Permit.Access.mono h (ih _)
  | store p b k ih => exact Permit.Access.mono h ih

/-! ## rules -/

theorem ends_pure (h : Q a m) : Ends G X (pure a : Prog β σ α) m Q := h

theorem ends_stop {x : σ} (h : X.stop x) : Ends G X (stop x : Prog β σ α) m Q := h

theorem ends_bind {Q : γ → Mem β → Prop}
    (h : Ends G X q m fun a m => Ends G X (f a) m Q) : Ends G X (q >>= f) m Q := by
  change Ends G X (q.bind f) m Q
  induction q generalizing m with
  | ret a => exact h
  | stop x => exact h
  | probe p k ih => exact ⟨h.1, ih _ h.2⟩
  | load p k ih => exact Permit.Access.mono h (ih _)
  | store p b k ih => exact Permit.Access.mono h ih

theorem ends_probe {Q : Bool → Mem β → Prop} (hX : X.probe (m.resident (G.page p)))
    (h : Q (m.resident (G.page p)) m) : Ends G X (probe p : Prog β σ Bool) m Q := ⟨hX, h⟩

theorem ends_load {Q : β → Mem β → Prop} (hX : X.Reads G p)
    (h : p < G.limit → G.readable p = true → Q (m.bytes p) (m.touch (G.page p))) :
    Ends G X (load p : Prog β σ β) m Q :=
  Permit.access hX.1 hX.2 h

theorem ends_store {Q : Unit → Mem β → Prop} {b : β} (hX : X.Writes G p)
    (h : G.writable p = true → Q () ((m.set p b).touch (G.page p))) :
    Ends G X (store p b : Prog β σ Unit) m Q :=
  Permit.access hX.1 hX.2 fun _ hw => h hw

/-! ## ranges -/

/-- The `n` bytes from `p` on are read. -/
def loadBytes (p : Nat) : Nat → Prog β σ (List β)
  | 0 => pure []
  | n + 1 => do
      let b ← load p
      let bs ← loadBytes (p + 1) n
      pure (b :: bs)

/-- Bytes are written from `p` on. -/
def storeBytes (p : Nat) : List β → Prog β σ Unit
  | [] => pure ()
  | b :: bs => do
      store p b
      storeBytes (p + 1) bs

/-- The `n` bytes from `p` on. -/
def bytesAt (bytes : Nat → β) (p : Nat) : Nat → List β
  | 0 => []
  | n + 1 => bytes p :: bytesAt bytes (p + 1) n

/-- The pages of the `n` bytes from `p` on come in. -/
def Mem.touchRange (m : Mem β) (page : Nat → Nat) (p : Nat) : Nat → Mem β
  | 0 => m
  | n + 1 => (m.touch (page p)).touchRange page (p + 1) n

@[simp] theorem Mem.touchRange_bytes (m : Mem β) (page : Nat → Nat) (p n : Nat) :
    (m.touchRange page p n).bytes = m.bytes := by
  induction n generalizing m p with
  | zero => rfl
  | succ n ih => exact ih _ _

theorem Mem.touchRange_resident {page : Nat → Nat} {r : Nat} :
    (m.touchRange page p n).resident r = true ↔
      m.resident r = true ∨ ∃ i, i < n ∧ page (p + i) = r := by
  induction n generalizing m p with
  | zero =>
    constructor
    · exact .inl
    · rintro (h | ⟨i, hi, -⟩)
      · exact h
      · omega
  | succ n ih =>
    simp only [touchRange, ih, touch, update_apply]
    constructor
    · rintro (h | ⟨i, hi, hpage⟩)
      · split at h
        · next hr => exact .inr ⟨0, by omega, hr.symm⟩
        · exact .inl h
      · exact .inr ⟨i + 1, by omega, by rw [← hpage, Nat.add_assoc, Nat.add_comm 1 i]⟩
    · rintro (h | ⟨i, hi, hpage⟩)
      · refine .inl ?_
        split
        · rfl
        · exact h
      · cases i with
        | zero => exact .inl (if_pos hpage.symm)
        | succ i => exact .inr ⟨i, by omega, by rw [← hpage, Nat.add_assoc, Nat.add_comm 1 i]⟩

theorem ends_loadBytes {Q : List β → Mem β → Prop} (hX : ∀ i, i < n → X.Reads G (p + i))
    (h : (∀ i, i < n → p + i < G.limit) → Q (bytesAt m.bytes p n) (m.touchRange G.page p n)) :
    Ends G X (loadBytes p n : Prog β σ (List β)) m Q := by
  induction n generalizing p m Q with
  | zero => exact h fun i hi => absurd hi (Nat.not_lt_zero i)
  | succ n ih =>
    refine ends_bind (ends_load (hX 0 (by omega)) fun hp _ => ends_bind (ih ?_ fun hn => h ?_))
    · intro i hi
      rw [Nat.add_assoc, Nat.add_comm 1 i]
      exact hX (i + 1) (by omega)
    · intro i hi
      cases i with
      | zero => exact hp
      | succ i =>
        rw [Nat.add_comm i 1, ← Nat.add_assoc]
        exact hn i (by omega)

theorem ends_storeBytes {Q : Unit → Mem β → Prop} {bs : List β}
    (hX : ∀ i, i < bs.length → X.Writes G (p + i))
    (h : (∀ i, i < bs.length → G.writable (p + i) = true) → ∀ m', Q () m') :
    Ends G X (storeBytes p bs : Prog β σ Unit) m Q := by
  induction bs generalizing p m with
  | nil => exact h (fun i hi => absurd hi (Nat.not_lt_zero i)) m
  | cons b bs ih =>
    rw [List.length_cons] at hX h
    refine ends_bind (ends_store (hX 0 (by omega)) fun hw => ih (fun i hi => ?_) fun hrest => h ?_)
    · rw [Nat.add_assoc, Nat.add_comm 1 i]
      exact hX (i + 1) (by omega)
    · intro i hi
      cases i with
      | zero => exact hw
      | succ i =>
        rw [Nat.add_comm i 1, ← Nat.add_assoc]
        exact hrest i (by omega)

/-! ## strings -/

section Strings

variable {z : β} {max : Nat} {P P' : Nat → Prop} {bytes : Nat → β}

/-- Every byte that the scan reads satisfies `P`. -/
def Scanned (bytes : Nat → β) (z : β) (P : Nat → Prop) (p max : Nat) : Prop :=
  ∀ i, i ≤ max → (∀ j, j < i → bytes (p + j) ≠ z) → P (p + i)

theorem Scanned.head (h : Scanned bytes z P p max) : P p :=
  h 0 (Nat.zero_le max) fun j hj => absurd hj (Nat.not_lt_zero j)

theorem Scanned.tail (h : Scanned bytes z P p (max + 1)) (hz : bytes p ≠ z) :
    Scanned bytes z P (p + 1) max := by
  intro i hi hbefore
  have hnext := h (i + 1) (by omega) fun j hj => by
    cases j with
    | zero => exact hz
    | succ j =>
      rw [← Nat.add_assoc, Nat.add_right_comm]
      exact hbefore j (by omega)
  rwa [← Nat.add_assoc, Nat.add_right_comm] at hnext

theorem Scanned.mono (h : Scanned bytes z P p max) (hn : n ≤ max)
    (hP : ∀ a, P a → P' a) : Scanned bytes z P' p n :=
  fun i hi hbefore => hP _ (h i (Nat.le_trans hi hn) hbefore)

variable [DecidableEq β]

/-- The loop that looks for the terminator `z`: the number of bytes before it,
and at most `max`.  It reads one byte more than it counts. -/
def scanTo (z : β) (p : Nat) : Nat → Prog β σ Nat
  | 0 => do
      let _ ← load p
      pure 0
  | max + 1 => do
      let b ← load p
      if b = z then pure 0
      else do
        let n ← scanTo z (p + 1) max
        pure (n + 1)

/-- The number of bytes before the terminator, and at most `max`. -/
def scanLen (bytes : Nat → β) (z : β) (p : Nat) : Nat → Nat
  | 0 => 0
  | max + 1 => if bytes p = z then 0 else scanLen bytes z (p + 1) max + 1

theorem scanLen_le : scanLen bytes z p max ≤ max := by
  induction max generalizing p with
  | zero => exact Nat.le_refl 0
  | succ max ih =>
    have := ih (p := p + 1)
    unfold scanLen
    split <;> omega

theorem ne_of_lt_scanLen (h : n < scanLen bytes z p max) : bytes (p + n) ≠ z := by
  induction max generalizing p n with
  | zero => exact absurd h (Nat.not_lt_zero n)
  | succ max ih =>
    unfold scanLen at h
    split at h
    · exact absurd h (Nat.not_lt_zero n)
    · next hz =>
      cases n with
      | zero => exact hz
      | succ n =>
        rw [Nat.add_comm n 1, ← Nat.add_assoc]
        exact ih (by omega)

theorem eq_of_scanLen_lt (h : scanLen bytes z p max < max) :
    bytes (p + scanLen bytes z p max) = z := by
  induction max generalizing p with
  | zero => exact absurd h (Nat.not_lt_zero _)
  | succ max ih =>
    unfold scanLen at h ⊢
    split
    · next hz => exact hz
    · next hz =>
      rw [if_neg hz] at h
      rw [Nat.add_comm _ 1, ← Nat.add_assoc]
      exact ih (by omega)

theorem Scanned.of_le_scanLen (h : Scanned bytes z P p max) (hn : n ≤ scanLen bytes z p max) :
    P (p + n) :=
  h n (Nat.le_trans hn scanLen_le) fun _ hj => ne_of_lt_scanLen (Nat.lt_of_lt_of_le hj hn)

/-- A scan that has found the terminator would read no more with a larger bound. -/
theorem Scanned.extend (h : Scanned bytes z P p max) (hlt : scanLen bytes z p max < max)
    (n : Nat) : Scanned bytes z P p n := by
  intro i _ hbefore
  have hi : i ≤ scanLen bytes z p max :=
    Nat.le_of_not_lt fun hi => hbefore _ hi (eq_of_scanLen_lt hlt)
  exact h.of_le_scanLen hi

theorem ends_scanTo {Q : Nat → Mem β → Prop} (hX : Scanned m.bytes z (X.Reads G) p max)
    (h : ∀ m', m'.bytes = m.bytes → p + scanLen m.bytes z p max < G.limit →
      G.readable p = true → Q (scanLen m.bytes z p max) m') :
    Ends G X (scanTo z p max : Prog β σ Nat) m Q := by
  induction max generalizing p m Q with
  | zero => exact ends_bind (ends_load hX.head fun hp hr => ends_pure (h _ rfl hp hr))
  | succ max ih =>
    refine ends_bind (ends_load hX.head fun hp hr => ?_)
    unfold scanLen at h
    by_cases hz : m.bytes p = z
    · rw [if_pos hz] at h ⊢
      exact ends_pure (h _ rfl hp hr)
    · rw [if_neg hz] at h ⊢
      refine ends_bind (ih (hX.tail hz) fun m' hm' hlt _ => ends_pure (h m' hm' ?_ hr))
      change p + 1 + scanLen m.bytes z (p + 1) max < G.limit at hlt
      omega

/-! ## comparison -/

/-- The comparison of the string at `p` with a string of one's own. -/
def compare (z : β) (p : Nat) : List β → Prog β σ Bool
  | [] => do
      let b ← load p
      pure (decide (b = z))
  | c :: cs => do
      let b ← load p
      if b ≠ z ∧ b = c then compare z (p + 1) cs else pure false

theorem ends_compare {Q : Bool → Mem β → Prop} {cs : List β}
    (hX : Scanned m.bytes z (X.Reads G) p cs.length) (h : ∀ b m', m'.bytes = m.bytes → Q b m') :
    Ends G X (compare z p cs : Prog β σ Bool) m Q := by
  induction cs generalizing p m with
  | nil => exact ends_bind (ends_load hX.head fun _ _ => ends_pure (h _ _ rfl))
  | cons c cs ih =>
    refine ends_bind (ends_load hX.head fun _ _ => ?_)
    by_cases hc : m.bytes p ≠ z ∧ m.bytes p = c
    · rw [if_pos hc]
      exact ih (hX.tail hc.1) h
    · rw [if_neg hc]
      exact ends_pure (h _ _ rfl)

end Strings

/-! ## runs that return -/

/-- Nothing but hits, and no end but a return. -/
def Permit.total : Permit σ := ⟨fun _ => False, False, False, fun _ => True⟩

theorem Ends.exec_done (h : Ends G .total q m Q) :
    ∃ a m', MemProg.exec G q m = .done a m' ∧ Q a m' := by
  rcases h.exec with h | ⟨x, m', -, hx⟩ | ⟨a, -, ha⟩
  · exact h
  · exact hx.elim False.elim (·.1.elim)
  · exact ha.elim

theorem exec_bind_of_done (h : exec G q m = .done a m') : exec G (q >>= f) m = exec G (f a) m' := by
  change exec G (q.bind f) m = _
  induction q generalizing m with
  | ret b =>
    cases h
    rfl
  | stop x => contradiction
  | probe p k ih => exact ih _ h
  | load p k ih =>
    simp only [exec] at h
    simp only [Prog.bind, exec]
    split at h
    · contradiction
    · next hp =>
      split at h
      · next hr =>
        rw [if_neg hp, if_pos hr]
        exact ih _ h
      · contradiction
  | store p b k ih =>
    simp only [exec] at h
    simp only [Prog.bind, exec]
    split at h
    · contradiction
    · next hp =>
      split at h
      · next hw =>
        rw [if_neg hp, if_pos hw]
        exact ih h
      · contradiction

/-! ## runs that end alike -/

/-- Nothing but hits. -/
def Permit.clear : Permit σ := ⟨fun _ => True, False, False, (· = true)⟩

theorem access_clear {ok : Bool} {P : Prop} (h : (Permit.clear : Permit σ).Access G p ok P) :
    ¬ G.limit ≤ p ∧ ok = true ∧ P := by
  rcases h.cases with ⟨-, hf⟩ | h | ⟨-, -, hf⟩
  · exact hf.elim
  · exact h
  · exact hf.elim

/-- **A program that hits in two memories with the same bytes ends alike in both.** -/
theorem visible_eq_of_clear {G' : Guard σ} (h : Ends G .clear q m Q)
    (h' : Ends G' .clear q m' Q') (hbytes : m.bytes = m'.bytes) :
    (exec G q m).visible = (exec G' q m').visible := by
  induction q generalizing m m' with
  | ret a => exact congrArg (Visible.done a) hbytes
  | stop x => rfl
  | probe p k ih =>
    obtain ⟨hr, h⟩ := h
    obtain ⟨hr', h'⟩ := h'
    change m.resident (G.page p) = true at hr
    change m'.resident (G'.page p) = true at hr'
    simp only [exec]
    rw [hr] at h ⊢
    rw [hr'] at h' ⊢
    exact ih true h h' hbytes
  | load p k ih =>
    obtain ⟨hp, hr, h⟩ := access_clear h
    obtain ⟨hp', hr', h'⟩ := access_clear h'
    simp only [exec, if_neg hp, if_pos hr, if_neg hp', if_pos hr']
    rw [← hbytes] at h' ⊢
    exact ih _ h h' hbytes
  | store p b k ih =>
    obtain ⟨hp, hw, h⟩ := access_clear h
    obtain ⟨hp', hw', h'⟩ := access_clear h'
    simp only [exec, if_neg hp, if_pos hw, if_neg hp', if_pos hw']
    refine ih h h' ?_
    change update m.bytes p b = update m'.bytes p b
    rw [hbytes]

-- the rules say all there is to know about `Ends`
attribute [irreducible] Ends

end MemProg
