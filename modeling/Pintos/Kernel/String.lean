import Pintos.Lib.Downward

/-!
# Pintos.Kernel.String

Strings in memory (`lib/string.c`): `strlen`, `strtok_r` and `memmove`.

`strtok_r` cuts a string into its tokens where it stands: it writes a zero byte over the
delimiter behind a token.  A caller that calls it until it returns a null pointer has the
addresses of all tokens, each with a zero byte behind it (`tokenLoop_spec`).

`memmove` copies right whichever way the ranges overlap, but what it returns is the pointer that it
has copied with: the end of the destination when it has gone up (`memmove_iff`).

The loops over memory have fuel; a string is shorter than the fuel that it is read with.
-/

namespace Pintos.Str

open Bytes Function List

/-! ## the functions -/

/-- `strlen`. -/
def strlen (m : Nat → UInt8) : Nat → Nat → Nat
  | 0, _ => 0
  | fuel + 1, p => if m p = 0 then 0 else strlen m fuel (p + 1) + 1

/-- `strchr` in a string with these bytes: where the byte is; the zero byte is behind them. -/
def strchr : List UInt8 → UInt8 → Option Nat
  | [], c => if c = 0 then some 0 else none
  | b :: string, c => if b = c then some 0 else (strchr string c).map (· + 1)

/-- Whether `strchr` finds the byte among the delimiters; it always finds the zero byte. -/
def isDelimiter (delimiters : List UInt8) (c : UInt8) : Bool := c = 0 || delimiters.contains c

/-- The first loop of `strtok_r`: the first byte that is no delimiter, or the end of the
string. -/
def skipDelimiters (m : Nat → UInt8) (delimiters : List UInt8) : Nat → Nat → Option Nat
  | 0, _ => none
  | fuel + 1, s =>
    if isDelimiter delimiters (m s) then
      if m s = 0 then some s else skipDelimiters m delimiters fuel (s + 1)
    else
      some s

/-- The second loop of `strtok_r`: the end of the token. -/
def skipToken (m : Nat → UInt8) (delimiters : List UInt8) : Nat → Nat → Option Nat
  | 0, _ => none
  | fuel + 1, s =>
    if isDelimiter delimiters (m s) then some s else skipToken m delimiters fuel (s + 1)

/-- `strtok_r` from `s` on: the memory, the token or a null pointer, and what is saved. -/
def strtokR (m : Nat → UInt8) (delimiters : List UInt8) (fuel s : Nat) :
    Option ((Nat → UInt8) × Option Nat × Nat) := do
  let token ← skipDelimiters m delimiters fuel s
  if m token = 0 then
    return (m, none, token)
  else
    let s ← skipToken m delimiters fuel token
    if m s ≠ 0 then return (update m s 0, token, s + 1) else return (m, token, s)

/-- `strtok_r` called until it returns a null pointer: the memory, the tokens and what is
saved. -/
def tokenLoop (delimiters : List UInt8) :
    Nat → (Nat → UInt8) → Nat → Option ((Nat → UInt8) × List Nat × Nat)
  | 0, _, _ => none
  | fuel + 1, m, s => do
    match ← strtokR m delimiters (fuel + 1) s with
    | (m, none, savePtr) => return (m, [], savePtr)
    | (m, some token, savePtr) =>
      let (m, tokens, savePtr) ← tokenLoop delimiters fuel m savePtr
      return (m, token :: tokens, savePtr)

theorem strchr_isSome (delimiters : List UInt8) (c : UInt8) :
    (strchr delimiters c).isSome = isDelimiter delimiters c := by
  induction delimiters with
  | nil => by_cases hc : c = 0 <;> simp [strchr, isDelimiter, hc]
  | cons b bs ih =>
    by_cases hb : b = c
    · simp [strchr, isDelimiter, hb]
    · simp [strchr, isDelimiter, hb, ih, Ne.symm hb]

/-! ## the tokens of a string -/

/-- The parts of a string between delimiters, without the empty ones. -/
def words (delimiters bs : List UInt8) : List (List UInt8) :=
  (bs.splitOnP delimiters.contains).filter (· ≠ [])

variable {m : Nat → UInt8} {d bs cs tok : List UInt8} {c : UInt8} {fuel s : Nat}

@[simp] theorem words_nil : words d [] = [] := by simp [words]

/-- Delimiters in front. -/
theorem words_append (h : ∀ c ∈ bs, d.contains c = true) : words d (bs ++ cs) = words d cs := by
  induction bs with
  | nil => rfl
  | cons b bs ih =>
    rw [forall_mem_cons] at h
    unfold words at ih ⊢
    rw [← ih h.2, cons_append, splitOnP_cons_eq_if_modifyHead, if_pos h.1]
    rfl

theorem words_token (hne : tok ≠ []) (htok : ∀ c ∈ tok, d.contains c = false)
    (hcs : ∀ c ∈ cs.head?, d.contains c = true) : words d (tok ++ cs) = tok :: words d cs.tail := by
  cases cs with
  | nil =>
    rw [append_nil, tail_nil, words_nil]
    unfold words
    rw [splitOnP_eq_singleton htok]
    simp [hne]
  | cons c cs =>
    unfold words
    rw [splitOnP_append_cons_of_forall_mem htok c (hcs c rfl)]
    simp [hne]

theorem delimiters_or_token (d bs : List UInt8) :
    (∀ c ∈ bs, d.contains c = true) ∨
      ∃ ds tok cs, bs = ds ++ (tok ++ cs) ∧ (∀ c ∈ ds, d.contains c = true) ∧ tok ≠ [] ∧
        (∀ c ∈ tok, d.contains c = false) ∧ ∀ c ∈ cs.head?, d.contains c = true := by
  induction bs with
  | nil => exact .inl (by simp)
  | cons b bs ih =>
    cases hb : d.contains b with
    | true =>
      rcases ih with h | ⟨ds, tok, cs, rfl, hds, hrest⟩
      · exact .inl (forall_mem_cons.mpr ⟨hb, h⟩)
      · exact .inr ⟨b :: ds, tok, cs, rfl, forall_mem_cons.mpr ⟨hb, hds⟩, hrest⟩
    | false =>
      refine .inr ⟨[], b :: bs.takeWhile (!d.contains ·), bs.dropWhile (!d.contains ·),
        ?_, by simp, cons_ne_nil _ _, ?_, ?_⟩
      · rw [nil_append, cons_append, takeWhile_append_dropWhile]
      · refine forall_mem_cons.mpr ⟨hb, fun c hc => ?_⟩
        simpa using mem_takeWhile_imp hc
      · intro c hc
        have hnot := head?_dropWhile_not (!d.contains ·) bs
        rw [Option.mem_def.mp hc] at hnot
        simpa using hnot

/-! ## what the functions compute -/

theorem strlen_eq (h : StringAt m s bs) (hz : 0 ∉ bs) (hf : bs.length < fuel) :
    strlen m fuel s = bs.length := by
  induction bs generalizing s fuel with
  | nil =>
    obtain ⟨fuel, rfl⟩ := Nat.exists_eq_add_of_lt hf
    rw [strlen, if_pos (stringAt_nil.mp h)]
    rfl
  | cons b bs ih =>
    obtain ⟨fuel, rfl⟩ := Nat.exists_eq_add_of_lt hf
    obtain ⟨hb, hrest⟩ := stringAt_cons.mp h
    rw [mem_cons, not_or] at hz
    rw [strlen, hb, if_neg (Ne.symm hz.1), ih hrest hz.2 (Nat.lt_of_succ_lt_succ hf)]
    rfl

theorem skipDelimiters_eq (h : StringAt m s (bs ++ cs)) (hz : 0 ∉ bs)
    (hd : ∀ c ∈ bs, d.contains c = true) (hcs : ∀ c ∈ cs.head?, d.contains c = false)
    (hf : bs.length < fuel) : skipDelimiters m d fuel s = some (s + bs.length) := by
  induction bs generalizing s fuel with
  | nil =>
    obtain ⟨fuel, rfl⟩ := Nat.exists_eq_add_of_lt hf
    have hstop : isDelimiter d (m s) = true → m s = 0 := by
      cases cs with
      | nil => exact fun _ => stringAt_nil.mp h
      | cons c cs =>
        rw [(stringAt_cons.mp h).1, isDelimiter, hcs c rfl, Bool.or_false]
        exact of_decide_eq_true
    rw [skipDelimiters]
    split
    · next hdelim => rw [if_pos (hstop hdelim)]; rfl
    · rfl
  | cons b bs ih =>
    obtain ⟨fuel, rfl⟩ := Nat.exists_eq_add_of_lt hf
    obtain ⟨hb, hrest⟩ := stringAt_cons.mp h
    rw [mem_cons, not_or] at hz
    rw [forall_mem_cons] at hd
    rw [skipDelimiters, hb, isDelimiter, hd.1, Bool.or_true, if_pos rfl, if_neg (Ne.symm hz.1),
      ih hrest hz.2 hd.2 (Nat.lt_of_succ_lt_succ hf), length_cons, Nat.add_assoc,
      Nat.add_comm 1]

theorem skipToken_eq (h : StringAt m s (tok ++ cs)) (hz : 0 ∉ tok)
    (htok : ∀ c ∈ tok, d.contains c = false) (hcs : ∀ c ∈ cs.head?, d.contains c = true)
    (hf : tok.length < fuel) : skipToken m d fuel s = some (s + tok.length) := by
  induction tok generalizing s fuel with
  | nil =>
    obtain ⟨fuel, rfl⟩ := Nat.exists_eq_add_of_lt hf
    have hdelim : isDelimiter d (m s) = true := by
      cases cs with
      | nil => simp [isDelimiter, stringAt_nil.mp h]
      | cons c cs => rw [(stringAt_cons.mp h).1, isDelimiter, hcs c rfl, Bool.or_true]
    rw [skipToken, if_pos hdelim]
    rfl
  | cons b tok ih =>
    obtain ⟨fuel, rfl⟩ := Nat.exists_eq_add_of_lt hf
    obtain ⟨hb, hrest⟩ := stringAt_cons.mp h
    rw [mem_cons, not_or] at hz
    rw [forall_mem_cons] at htok
    rw [skipToken, hb, isDelimiter, htok.1, Bool.or_false, decide_eq_false (Ne.symm hz.1),
      if_neg (by simp), ih hrest hz.2 htok.2 (Nat.lt_of_succ_lt_succ hf), length_cons,
      Nat.add_assoc, Nat.add_comm 1]

/-- Without a token, `strtok_r` returns a null pointer and saves where the string ends. -/
theorem strtokR_none (h : StringAt m s bs) (hz : 0 ∉ bs) (hd : ∀ c ∈ bs, d.contains c = true)
    (hf : bs.length < fuel) : strtokR m d fuel s = some (m, none, s + bs.length) := by
  have h' : StringAt m s (bs ++ []) := (append_nil bs).symm ▸ h
  have hend : m (s + bs.length) = 0 := stringAt_nil.mp h'.right
  unfold strtokR
  rw [skipDelimiters_eq h' hz hd nofun hf, Option.bind_eq_bind, Option.bind_some, if_pos hend]
  rfl

/-- **`strtok_r` returns the first token, which it ends with a zero byte, and saves where the rest
starts.** -/
theorem strtokR_spec (h : StringAt m s (bs ++ (tok ++ cs))) (hz : 0 ∉ bs ++ (tok ++ cs))
    (hd : ∀ c ∈ bs, d.contains c = true) (hne : tok ≠ []) (htok : ∀ c ∈ tok, d.contains c = false)
    (hcs : ∀ c ∈ cs.head?, d.contains c = true) :
    ∃ m₁ e, (∀ fuel, (bs ++ (tok ++ cs)).length < fuel →
        strtokR m d fuel s = some (m₁, some (s + bs.length), e)) ∧
      StringAt m₁ (s + bs.length) tok ∧ StringAt m₁ e cs.tail ∧
      (s + bs.length + tok.length < e ∨ cs.tail = [] ∧ s + bs.length + tok.length = e) ∧
      e + cs.tail.length = s + (bs ++ (tok ++ cs)).length ∧
      ∀ i, m₁ i ≠ m i → s ≤ i ∧ i < e ∧ d.contains (m i) = true ∧ m₁ i = 0 := by
  rw [mem_append, mem_append, not_or, not_or] at hz
  have hfree : ∀ c ∈ (tok ++ cs).head?, d.contains c = false := by
    cases tok with
    | nil => exact absurd rfl hne
    | cons b tok =>
      rintro c ⟨⟩
      exact htok b mem_cons_self
  have hbyte : m (s + bs.length) ≠ 0 := by
    cases tok with
    | nil => exact absurd rfl hne
    | cons b tok =>
      rw [(stringAt_cons.mp h.right).1]
      exact fun h0 => hz.2.1 (h0 ▸ mem_cons_self)
  have hrest : StringAt m (s + bs.length + tok.length) cs := h.right.right
  have hlen : (bs ++ (tok ++ cs)).length = bs.length + (tok.length + cs.length) := by
    rw [length_append, length_append]
  have hrun : ∀ fuel, (bs ++ (tok ++ cs)).length < fuel → strtokR m d fuel s =
      if m (s + bs.length + tok.length) ≠ 0 then
        some (update m (s + bs.length + tok.length) 0, some (s + bs.length),
          s + bs.length + tok.length + 1)
      else some (m, some (s + bs.length), s + bs.length + tok.length) := by
    intro fuel hf
    unfold strtokR
    rw [skipDelimiters_eq h hz.1 hd hfree (by omega), Option.bind_eq_bind, Option.bind_some,
      if_neg hbyte, skipToken_eq h.right hz.2.1 htok hcs (by omega), Option.bind_some]
    rfl
  rw [hlen] at hrun ⊢
  cases cs with
  | nil =>
    have hnul : m (s + bs.length + tok.length) = 0 := stringAt_nil.mp hrest
    have htoken := h.right
    rw [append_nil] at htoken
    refine ⟨m, _, fun fuel hf => (hrun fuel hf).trans (if_neg (not_not.mpr hnul)), htoken, hrest,
      .inr ⟨rfl, rfl⟩, ?_, fun i hi => absurd rfl hi⟩
    simp only [tail_nil, length_nil]
    omega
  | cons c cs =>
    obtain ⟨hc, hcs'⟩ := stringAt_cons.mp hrest
    have hc0 : m (s + bs.length + tok.length) ≠ 0 := by
      rw [hc]
      exact fun h0 => hz.2.2 (h0 ▸ mem_cons_self)
    refine ⟨_, _, fun fuel hf => (hrun fuel hf).trans (if_pos hc0), h.right.left,
      hcs'.congr fun i hi _ => update_of_ne (by omega) .., .inl (Nat.lt_succ_self _), ?_,
      fun i hi => ?_⟩
    · rw [length_cons, tail_cons]
      omega
    · have heq : i = s + bs.length + tok.length := by
        by_contra hne
        exact hi (update_of_ne hne ..)
      subst heq
      exact ⟨by omega, by omega, hc ▸ hcs c rfl, update_self ..⟩

/-- What a token's address points to: a part of the string that is delimited on both sides, with a
zero byte behind it. -/
structure TokenAt (m : Nat → UInt8) (d : List UInt8) (s : Nat) (bs : List UInt8) (p : Nat)
    (tok : List UInt8) : Prop where
  string : StringAt m p tok
  free : ∀ c ∈ tok, d.contains c = false
  place : ∃ pre post, bs = pre ++ (tok ++ post) ∧ p = s + pre.length ∧
    (∀ c ∈ pre.getLast?, d.contains c = true) ∧ ∀ c ∈ post.head?, d.contains c = true

namespace TokenAt

variable {p : Nat}

theorem start (h : TokenAt m d s bs p tok) : s ≤ p := by
  obtain ⟨pre, post, -, hp, -⟩ := h.place
  omega

theorem length (h : TokenAt m d s bs p tok) : tok.length ≤ bs.length := by
  obtain ⟨pre, post, hbs, -⟩ := h.place
  rw [hbs, length_append, length_append]
  omega

theorem nonzero (h : TokenAt m d s bs p tok) (hz : 0 ∉ bs) : 0 ∉ tok := by
  obtain ⟨pre, post, hbs, -⟩ := h.place
  exact fun h0 => hz (by simp [hbs, h0])

/-- A token of what is behind a delimiter. -/
theorem after (h : TokenAt m d (s + (bs ++ [c]).length) cs p tok) (hc : d.contains c = true) :
    TokenAt m d s (bs ++ c :: cs) p tok := by
  obtain ⟨pre, post, hcs, hp, hpre, hpost⟩ := h.place
  refine ⟨h.string, h.free, bs ++ [c] ++ pre, post, by simp [hcs], ?_, ?_, hpost⟩
  · rw [hp, length_append, length_append, length_append]
    omega
  · intro b hb
    rw [getLast?_append] at hb
    cases hlast : pre.getLast? with
    | none => simp_all
    | some a => exact hpre b (by simp_all)

end TokenAt

/-- **The loop finds the tokens of the string, saves where it ends, and writes over delimiters of
the string only.** -/
theorem tokenLoop_spec (h : StringAt m s bs) (hz : 0 ∉ bs) :
    ∃ m' tokens, (∀ fuel, bs.length < fuel →
        tokenLoop d fuel m s = some (m', tokens, s + bs.length)) ∧
      Forall₂ (TokenAt m' d s bs) tokens (words d bs) ∧ tokens.Pairwise (· < ·) ∧
      ∀ i, m' i ≠ m i → s ≤ i ∧ i < s + bs.length ∧ d.contains (m i) = true ∧ m' i = 0 := by
  induction hn : bs.length using Nat.strong_induction_on generalizing m s bs with
  | _ n ih =>
    subst hn
    rcases delimiters_or_token d bs with hd | ⟨ds, tok, cs, rfl, hds, hne, htok, hcs⟩
    · have hwords : words d bs = [] := by
        rw [← append_nil bs, words_append hd, words_nil]
      refine ⟨m, [], fun fuel hf => ?_, hwords ▸ .nil, .nil, fun i hi => absurd rfl hi⟩
      obtain ⟨fuel, rfl⟩ := Nat.exists_eq_add_of_lt hf
      rw [tokenLoop, strtokR_none h hz hd hf]
      rfl
    · obtain ⟨m₁, e, hrun, htoken, hrest, he, hlast, hframe⟩ := strtokR_spec h hz hds hne htok hcs
      have hpos : 0 < tok.length := length_pos_iff.mpr hne
      have hlen : (ds ++ (tok ++ cs)).length = ds.length + (tok.length + cs.length) := by
        rw [length_append, length_append]
      have htail : cs.tail.length ≤ cs.length := by
        rw [length_tail]
        omega
      have hztail : 0 ∉ cs.tail := fun h0 => hz (by simp [mem_of_mem_tail h0])
      obtain ⟨m', tokens, hloop, htokens, hsorted, hframe'⟩ := ih _ (by omega) hrest hztail rfl
      -- what is behind the token has its own bytes still
      have hsame : ∀ i, e ≤ i → m₁ i = m i := fun i hi => by
        by_contra hi'
        have := (hframe i hi').2.1
        omega
      have hfirst : StringAt m' (s + ds.length) tok := by
        refine htoken.congr fun i _ hi => ?_
        by_contra hi'
        obtain ⟨h₁, h₂, -⟩ := hframe' i hi'
        rcases he with he | ⟨hnil, he⟩
        · omega
        · rw [hnil, length_nil] at h₂
          omega
      refine ⟨m', (s + ds.length) :: tokens, fun fuel hf => ?_, ?_, ?_, fun i hi => ?_⟩
      · obtain ⟨fuel, rfl⟩ := Nat.exists_eq_add_of_lt hf
        rw [tokenLoop, hrun _ hf, Option.bind_eq_bind, Option.bind_some]
        dsimp only
        rw [hloop _ (by omega), hlast]
        rfl
      · rw [words_append hds, words_token hne htok hcs]
        refine .cons ⟨hfirst, htok, ds, cs, rfl, rfl, fun c hc => hds c (mem_of_getLast? hc), hcs⟩ ?_
        cases cs with
        | nil =>
          rw [tail_nil, words_nil] at htokens ⊢
          cases htokens
          exact .nil
        | cons c cs =>
          have hplace : e = s + (ds ++ tok ++ [c]).length := by
            rw [tail_cons] at hlast
            rw [length_append, length_append, length_singleton]
            rw [length_cons] at hlen
            omega
          rw [← append_assoc]
          exact htokens.imp fun p word hp => (hplace ▸ hp).after (hcs c rfl)
      · obtain ⟨hstart, -⟩ := (forall₂_and_left _ _).mp (htokens.imp fun p word hp => ⟨hp.start, hp⟩)
        refine pairwise_cons.mpr ⟨fun p hp => ?_, hsorted⟩
        have := hstart p hp
        omega
      · by_cases hi' : m' i = m₁ i
        · obtain ⟨h₁, h₂, h₃, h₄⟩ := hframe i (hi' ▸ hi)
          exact ⟨h₁, by omega, h₃, hi'.trans h₄⟩
        · obtain ⟨h₁, h₂, h₃, h₄⟩ := hframe' i hi'
          rw [hsame i h₁] at h₃
          exact ⟨by omega, by omega, h₃, h₄⟩

/-- **`strtok_r` splits exactly**: called until it returns a null pointer, it returns the parts of
the string between delimiters in order, each ended in place; it has written over delimiters of the
string only, and every further call returns a null pointer. -/
theorem strtokR_splits (h : StringAt m s bs) (hz : 0 ∉ bs) :
    ∃ m' tokens savePtr,
      (∀ fuel, bs.length < fuel → tokenLoop d fuel m s = some (m', tokens, savePtr)) ∧
      Forall₂ (TokenAt m' d s bs) tokens (words d bs) ∧ tokens.Pairwise (· < ·) ∧
      (∀ i, m' i ≠ m i → s ≤ i ∧ i < s + bs.length ∧ d.contains (m i) = true ∧ m' i = 0) ∧
      ∀ d' fuel, 0 < fuel → strtokR m' d' fuel savePtr = some (m', none, savePtr) := by
  obtain ⟨m', tokens, hloop, htokens, hsorted, hframe⟩ := tokenLoop_spec (d := d) h hz
  refine ⟨m', tokens, _, hloop, htokens, hsorted, hframe, fun d' fuel hf => ?_⟩
  have hnul : m' (s + bs.length) = 0 := by
    have h' : StringAt m s (bs ++ []) := (append_nil bs).symm ▸ h
    rw [← stringAt_nil.mp h'.right]
    by_contra hne
    exact Nat.lt_irrefl _ (hframe _ hne).2.1
  exact strtokR_none (stringAt_nil.mpr hnul) not_mem_nil nofun hf

theorem strtokR_splits_word : ∃ m' tokens savePtr,
    (∀ fuel, 1 < fuel →
      tokenLoop [0x20] fuel (update (fun _ => 0) 1 0x61) 1 = some (m', tokens, savePtr)) ∧
    Forall₂ (TokenAt m' [0x20] 1 [0x61]) tokens (words [0x20] [0x61]) :=
  have hword : StringAt (update (fun _ => 0) 1 0x61) 1 [0x61] := rfl
  have ⟨m', tokens, savePtr, hrun, htokens, _⟩ := strtokR_splits (d := [0x20]) hword (by decide)
  ⟨m', tokens, savePtr, hrun, htokens⟩

/-! ## memmove -/

/-- The loop of `memmove` that goes up: the memory and `dst` at its end. -/
def copyUp (m : Nat → UInt8) (dst src : Nat) : Nat → (Nat → UInt8) × Nat
  | 0 => (m, dst)
  | size + 1 => copyUp (update m dst (m src)) (dst + 1) (src + 1) size

/-- The loop that goes down. -/
def copyDown (m : Nat → UInt8) (dst src : Nat) : Nat → (Nat → UInt8) × Nat
  | 0 => (m, dst)
  | size + 1 => copyDown (update m (dst - 1) (m (src - 1))) (dst - 1) (src - 1) size

/-- `memmove` on ranges that do not wrap around: the memory and what it returns; `none` when an
`ASSERT` fails. -/
def memmove (m : Nat → UInt8) (dst src size : Nat) : Option ((Nat → UInt8) × Nat) :=
  if (dst ≠ 0 ∨ size = 0) ∧ (src ≠ 0 ∨ size = 0) then
    some (if dst < src then copyUp m dst src size else copyDown m (dst + size) (src + size) size)
  else
    none

/-- The memory with `size` bytes of `src` at `dst`. -/
def moved (m : Nat → UInt8) (dst src size i : Nat) : UInt8 :=
  if dst ≤ i ∧ i < dst + size then m (i - dst + src) else m i

variable {dst src size : Nat}

theorem copyUp_eq (h : dst < src) : copyUp m dst src size = (moved m dst src size, dst + size) := by
  induction size generalizing m dst src with
  | zero =>
    refine Prod.ext (funext fun i => ?_) rfl
    exact (if_neg (by omega)).symm
  | succ size ih =>
    rw [copyUp, ih (by omega)]
    refine Prod.ext (funext fun i => ?_) (by omega)
    -- the byte written now is behind all that is still to be read
    simp only [moved, update_apply]
    grind

theorem copyDown_eq (h : src ≤ dst) :
    copyDown m (dst + size) (src + size) size = (moved m dst src size, dst) := by
  induction size generalizing m with
  | zero =>
    refine Prod.ext (funext fun i => ?_) rfl
    exact (if_neg (by omega)).symm
  | succ size ih =>
    rw [copyDown, ← Nat.add_assoc, ← Nat.add_assoc, Nat.add_sub_cancel, Nat.add_sub_cancel, ih]
    refine Prod.ext (funext fun i => ?_) rfl
    simp only [moved, update_apply]
    grind

/-- **`memmove` copies the bytes and returns its destination just when it goes down or there is
nothing to copy.** -/
theorem memmove_iff (m : Nat → UInt8) (dst src size : Nat) :
    memmove m dst src size = some (moved m dst src size, dst) ↔
      size = 0 ∨ dst ≠ 0 ∧ src ≠ 0 ∧ src ≤ dst := by
  unfold memmove
  by_cases hup : dst < src
  · rw [if_pos hup, copyUp_eq hup]
    simp only [Option.ite_none_right_eq_some, Option.some.injEq, Prod.mk.injEq, true_and]
    omega
  · rw [if_neg hup, copyDown_eq (Nat.le_of_not_lt hup)]
    simp only [Option.ite_none_right_eq_some, and_true]
    omega

/-- One byte is copied down by one place, and the place behind it is returned. -/
theorem memmove_returns_end :
    (memmove (fun i => UInt8.ofNat i) 1 2 1).map Prod.snd = some 2 ∧
      memmove (fun i => UInt8.ofNat i) 1 2 1 ≠ some (moved (fun i => UInt8.ofNat i) 1 2 1, 1) := by
  refine ⟨rfl, fun h => ?_⟩
  have hret : (memmove (fun i => UInt8.ofNat i) 1 2 1).map Prod.snd = some 1 := by rw [h]; rfl
  exact absurd hret (by decide)

end Pintos.Str
