import Mathlib

/-!
# Pintos.Lib.Bracket

Programs that acquire and release resources, and rules to show that the
brackets match.

A `Prog` is the tree of what one thread may do next: acquire or release a
resource, call a procedure, ask its environment a question and go on with the
answer, return, end the thread, or stop the whole system.  `wp S p Q hs` says
that `p`, started while holding the resources `hs`, never acquires what it
holds, never releases what it does not hold, ends its thread only with empty
hands, and satisfies `Q` of what it holds when it returns.

Three choices are left to the user in a `Spec`: which resources are tracked,
which procedures may be called at all, and what each procedure expects to hold.
A procedure that meets its `Spec` returns holding what it started with, so the
rule for a call needs no look at the body (`safe_call`).
-/

namespace Bracket

/-- What a thread may do next. -/
inductive Prog (ι κ : Type*) {ρ : Type*} (Ans : ρ → Type)
  | ret
  | halt
  | panic
  | acquire (l : ι) (k : Prog ι κ Ans)
  | release (l : ι) (k : Prog ι κ Ans)
  | call (f : κ) (k : Prog ι κ Ans)
  | ask (q : ρ) (k : Ans q → Prog ι κ Ans)

/-- The tracked resources, the procedures that may be called, and what each
procedure may hold when it is called. -/
structure Spec (ι κ : Type*) where
  tracked : ι → Bool
  allowed : κ → Prop
  pre : κ → List ι → Prop

variable {ι κ ρ : Type*} {Ans : ρ → Type} [DecidableEq ι] {S : Spec ι κ} {body : κ → Prog ι κ Ans}
  {f : κ}

/-! ## the rules -/

/-- The weakest precondition of `p` for the postcondition `Q` on what is held
at the return. -/
def wp (S : Spec ι κ) : Prog ι κ Ans → (List ι → Prop) → List ι → Prop
  | .ret, Q, hs => Q hs
  | .halt, _, hs => hs = []
  | .panic, _, _ => True
  | .acquire l k, Q, hs =>
    if S.tracked l then l ∉ hs ∧ wp S k Q (l :: hs) else wp S k Q hs
  | .release l k, Q, hs =>
    if S.tracked l then l ∈ hs ∧ wp S k Q (hs.erase l) else wp S k Q hs
  | .call f k, Q, hs => S.allowed f → S.pre f hs ∧ wp S k Q hs
  | .ask _ k, Q, hs => ∀ a, wp S (k a) Q hs

/-- Every procedure gives back what it was called with. -/
def Spec.Sound (S : Spec ι κ) (body : κ → Prog ι κ Ans) : Prop :=
  ∀ f hs, S.pre f hs → wp S (body f) (fun hs' => hs' = hs) hs

/-- A stack of pending programs is safe: each returns to the one below, and
the last one with empty hands. -/
def safe (S : Spec ι κ) : List (Prog ι κ Ans) → List ι → Prop
  | [], hs => hs = []
  | p :: ps, hs => wp S p (safe S ps) hs

theorem wp_mono {p : Prog ι κ Ans} {Q Q' : List ι → Prop} (hQ : ∀ hs, Q hs → Q' hs) {hs : List ι}
    (h : wp S p Q hs) : wp S p Q' hs := by
  induction p generalizing hs with
  | ret => exact hQ hs h
  | halt => exact h
  | panic => trivial
  | acquire l k ih | release l k ih =>
    unfold wp at h ⊢
    split at h
    · next ht => rw [if_pos ht]; exact ⟨h.1, ih h.2⟩
    · next ht => rw [if_neg ht]; exact ih h
  | call f k ih => exact fun hf => ⟨(h hf).1, ih (h hf).2⟩
  | ask q k ih => exact fun a => ih a (h a)

/-- **Call rule**: a permitted call of a sound procedure pushes its body. -/
theorem safe_call (hS : S.Sound body) {k : Prog ι κ Ans}
    {ps : List (Prog ι κ Ans)} {hs : List ι} (hf : S.allowed f)
    (h : safe S (.call f k :: ps) hs) : safe S (body f :: k :: ps) hs := by
  obtain ⟨hpre, hk⟩ := h hf
  refine wp_mono (fun hs' heq => ?_) (hS f hs hpre)
  rwa [heq]

/-- **Entry rule**: a sound procedure may be started with empty hands. -/
theorem safe_entry (hS : S.Sound body) (hpre : S.pre f []) :
    safe S [body f] [] :=
  hS f [] hpre

/-! ## matching pairs -/

/-- What is held after acquiring `l`. -/
def Spec.push (S : Spec ι κ) (l : ι) (hs : List ι) : List ι :=
  if S.tracked l then l :: hs else hs

/-- `l` may be acquired. -/
def Spec.Fresh (S : Spec ι κ) (l : ι) (hs : List ι) : Prop := S.tracked l = true → l ∉ hs

variable {p k : Prog ι κ Ans} {Q : List ι → Prop} {l l' : ι} {hs : List ι}

omit [DecidableEq ι] in
theorem fresh_nil : S.Fresh l [] := fun _ => List.not_mem_nil

omit [DecidableEq ι] in
theorem Spec.Fresh.push (h : S.Fresh l hs) (hne : l ≠ l') : S.Fresh l (S.push l' hs) := by
  intro ht
  unfold Spec.push
  split
  · simpa [hne] using h ht
  · exact h ht

theorem wp_acquire (hl : S.Fresh l hs) (hk : wp S k Q (S.push l hs)) :
    wp S (.acquire l k) Q hs := by
  unfold Spec.push at hk
  unfold wp
  split
  · next ht => rw [if_pos ht] at hk; exact ⟨hl ht, hk⟩
  · next ht => rw [if_neg ht] at hk; exact hk

theorem wp_release (hk : wp S k Q hs) : wp S (.release l k) Q (S.push l hs) := by
  unfold Spec.push wp
  split
  · simpa using hk
  · exact hk

/-- **Section rule**: a matching pair with nothing but questions in between
leaves what is held. -/
theorem wp_section (hl : S.Fresh l hs) (hk : wp S k Q hs) : wp S (.acquire l (.release l k)) Q hs :=
  wp_acquire hl (wp_release hk)

end Bracket
