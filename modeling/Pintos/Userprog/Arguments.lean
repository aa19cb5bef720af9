import Pintos.Filesys.Directory
import Pintos.Kernel.String

/-!
# Pintos.Userprog.Arguments

The command line on the stack of a new process (`argument_passing` in `userprog/process.c`).

`argument_passing` copies the command line, cuts the copy into tokens with `strtok_r`, and pushes
from `PHYS_BASE` downwards

```
the tokens, each with its zero byte
bytes up to a multiple of 4
a null pointer
the tokens' addresses                <- argv
argv
argc
a null pointer                       <- esp
```

The main result `argumentPassing_decodes` reads this frame back, as `_start` (`lib/user/entry.c`)
does with `argc` and `argv`.

The kernel's memory and the user's are one store of bytes; the copy `s` lies in the kernel's part.
`char s[cmdLen]` is declared one byte shorter than what `strlcpy` writes to it; the model gives
that byte a place.  The arrays `argArr` and `addrArr` are lists, and a token too many is an
error of its own.
-/

namespace Pintos.Arguments

open Bytes Str List
open Fs (CString)

/-! ## the code -/

/-- `STACK_LIMIT`. -/
def stackLimit : Nat := 4096

/-- `ARGC`, the length of `argArr` and `addrArr`. -/
def maxArgc : Nat := 16

/-- How the function fails to return: by `exit (-1)`, or by a store behind the end of `argArr`. -/
inductive Failure where
  | exit
  | overflow
  deriving DecidableEq, Repr

/-- What the pushes work on. -/
structure Stack where
  mem : Nat → UInt8
  esp : Nat
  bytesUsed : Nat

/-- `PUSH_STACK` of the bytes `bs`, with `check_stack_overflow`. -/
def push (st : Stack) (bs : List UInt8) : Except Failure Stack :=
  let esp := st.esp - bs.length
  let mem := write st.mem esp bs
  let bytesUsed := st.bytesUsed + bs.length
  if bytesUsed > stackLimit then .error .exit else .ok { mem, esp, bytesUsed }

/-- The loop that pushes the tokens, from the last to the first: the stack and `addrArr`. -/
def pushTokens (fuel : Nat) : List Nat → Stack → Except Failure (Stack × List Nat)
  | [], st => .ok (st, [])
  | arg :: argArr, st => do
      let (st, addrArr) ← pushTokens fuel argArr st
      let st ← push st (read st.mem arg (strlen st.mem fuel arg + 1))
      .ok (st, st.esp :: addrArr)

/-- The loop that pushes the addresses, from the last to the first. -/
def pushAddrs : List Nat → Stack → Except Failure Stack
  | [], st => .ok st
  | addr :: addrArr, st => do
      let st ← pushAddrs addrArr st
      push st (le32 addr)

/-- Zero bytes down to a multiple of 4. -/
def align (st : Stack) : Except Failure Stack :=
  let addr := st.esp - st.esp % 4
  let addrDiff := st.esp - addr
  push st ((le32 0).take addrDiff)

/-- `argc`, which is stored without `PUSH_STACK`. -/
def storeArgc (st : Stack) (argc : Nat) : Stack :=
  { st with mem := write st.mem (st.esp - 4) (le32 argc), esp := st.esp - 4 }

/-- The frame: `argv`, `argc` and a null pointer. -/
def pushFrame (st : Stack) (argc : Nat) : Except Failure Stack := do
  let addrArgv := st.esp
  let st ← push st (le32 addrArgv)
  push (storeArgc st argc) (le32 0)

/-- `argument_passing`, with the copy of the command line at `s`; `memory` is whether `malloc` has
memory for `current_file_name`. -/
def argumentPassing (m : Nat → UInt8) (s : { a : Nat // physBase ≤ a }) (memory : Bool) (esp : Nat)
    (fileName : CString) : Except Failure Stack := do
  if !memory then
    .error .exit
  else
    let cmdLen := fileName.1.length
    let mem := write m s (fileName.1 ++ [0])
    let (mem, argArr, _) := (tokenLoop [0x20] (cmdLen + 1) mem s).getD (mem, [], s)
    if argArr.length > maxArgc then
      .error .overflow
    else
      let (st, addrArr) ← pushTokens (cmdLen + 1) argArr { mem, esp, bytesUsed := 0 }
      let st ← align st
      let st ← push st (le32 0)
      let st ← pushAddrs addrArr st
      pushFrame st argArr.length

/-! ## the image -/

/-- The tokens of a command line. -/
def tokens (fileName : CString) : List (List UInt8) := words [0x20] fileName.1

/-- The strings as they lie in memory. -/
def strings (toks : List (List UInt8)) : List (List UInt8) := toks.map (· ++ [0])

/-- The number of bytes between the strings and the pointers. -/
def padding (toks : List (List UInt8)) : Nat := (physBase - (strings toks).flatten.length) % 4

/-- The size of the stack image: strings, padding, `argc + 1` pointers and the frame. -/
def imageSize (toks : List (List UInt8)) : Nat :=
  (strings toks).flatten.length + padding toks + 4 * (toks.length + 1) + 12

/-- The addresses of strings that end at `top`. -/
def addrs (top : Nat) : List (List UInt8) → List Nat
  | [] => []
  | tok :: toks => (top - (strings (tok :: toks)).flatten.length) :: addrs top toks

/-- The stack with `bs` on it. -/
def image (m : Nat → UInt8) (top : Nat) (bs : List UInt8) (bytesUsed : Nat) : Stack where
  mem := below m top bs
  esp := top - bs.length
  bytesUsed

/-- The strings and the padding. -/
def lowImage (toks : List (List UInt8)) : List UInt8 :=
  (le32 0).take (padding toks) ++ (strings toks).flatten

/-- The pointers, above what they point to. -/
def argvImage (toks : List (List UInt8)) : List UInt8 :=
  ((addrs physBase toks).map le32).flatten ++ (le32 0 ++ lowImage toks)

/-- The address of the pointers. -/
def argv (toks : List (List UInt8)) : Nat := physBase - (argvImage toks).length

/-- All that is pushed. -/
def stackImage (toks : List (List UInt8)) : List UInt8 :=
  le32 0 ++ (le32 toks.length ++ (le32 (argv toks) ++ argvImage toks))

/-! ## the pushes -/

section
variable {m : Nat → UInt8} {top used fuel s : Nat} {bs cs cmd : List UInt8}
  {toks : List (List UInt8)} {argArr addrArr : List Nat}

theorem image_esp : (image m top bs used).esp = top - bs.length := rfl

theorem image_nil : image m top [] used = { mem := m, esp := top, bytesUsed := used } := by
  unfold image
  rw [below_nil, length_nil, Nat.sub_zero]

theorem push_image (hused : used + cs.length ≤ stackLimit) (htop : cs.length + bs.length ≤ top) :
    push (image m top bs used) cs = .ok (image m top (cs ++ bs) (used + cs.length)) := by
  have hesp : top - (cs ++ bs).length = top - bs.length - cs.length := by
    rw [length_append]
    omega
  unfold push image
  dsimp only
  rw [if_neg (by omega), write_downward htop, hesp]

theorem storeArgc_image {argc : Nat} (htop : 4 + bs.length ≤ top) :
    storeArgc (image m top bs used) argc = image m top (le32 argc ++ bs) used := by
  have hesp : top - (le32 argc ++ bs).length = top - bs.length - 4 := by
    rw [length_append, length_le32]
    omega
  have hmem : write (below m top bs) (top - bs.length - 4) (le32 argc) =
      below m top (le32 argc ++ bs) := by
    rw [← write_downward (by rwa [length_le32]), length_le32]
  unfold storeArgc image
  dsimp only
  rw [hmem, hesp]

theorem strings_cons {tok : List UInt8} :
    (strings (tok :: toks)).flatten = (tok ++ [0]) ++ (strings toks).flatten := rfl

/-- **The tokens are pushed as strings, and their addresses recorded.** -/
theorem pushTokens_image (h : Forall₂ (TokenAt m [0x20] s cmd) argArr toks) (hz : 0 ∉ cmd)
    (hs : top ≤ s) (hfuel : cmd.length < fuel) (hused : (strings toks).flatten.length ≤ stackLimit)
    (htop : stackLimit ≤ top) :
    pushTokens fuel argArr (image m top [] 0) =
      .ok (image m top (strings toks).flatten (strings toks).flatten.length, addrs top toks) := by
  induction h with
  | nil => rfl
  | @cons arg tok argArr toks harg hrest ih =>
    rw [strings_cons, length_append] at hused
    have hused' : (strings toks).flatten.length ≤ stackLimit := by omega
    -- the strings pushed so far lie below the copy of the command line
    have htok : StringAt (below m top (strings toks).flatten) arg tok :=
      harg.string.congr fun i hi _ => by
        have hstart := harg.start
        exact below_of_le (by omega) (by omega)
    have hlen : tok.length < fuel := lt_of_le_of_lt harg.length hfuel
    have hread : read (below m top (strings toks).flatten) arg
        (strlen (below m top (strings toks).flatten) fuel arg + 1) = tok ++ [0] := by
      rwa [strlen_eq htok (harg.nonzero hz) hlen]
    have hpush : push (image m top (strings toks).flatten (strings toks).flatten.length)
        (tok ++ [0]) = .ok (image m top (strings (tok :: toks)).flatten
          (strings (tok :: toks)).flatten.length) := by
      have hsum : ((tok ++ [0]) ++ (strings toks).flatten).length =
          (strings toks).flatten.length + (tok ++ [0]).length := by
        rw [length_append, Nat.add_comm]
      rw [push_image (by omega) (by omega), strings_cons, hsum]
    unfold pushTokens
    rw [ih hused', ok_bind]
    dsimp only
    rw [show (image m top (strings toks).flatten (strings toks).flatten.length).mem =
      below m top (strings toks).flatten from rfl, hread, hpush, ok_bind]
    rfl

theorem length_addrs : (addrArr.map le32).flatten.length = 4 * addrArr.length := by
  induction addrArr with
  | nil => rfl
  | cons addr addrArr ih =>
    rw [map_cons, flatten_cons, length_append, ih, length_le32, length_cons]
    omega

theorem pushAddrs_image (hused : used + 4 * addrArr.length ≤ stackLimit)
    (htop : 4 * addrArr.length + bs.length ≤ top) :
    pushAddrs addrArr (image m top bs used) =
      .ok (image m top ((addrArr.map le32).flatten ++ bs) (used + 4 * addrArr.length)) := by
  induction addrArr with
  | nil => rfl
  | cons addr addrArr ih =>
    rw [length_cons] at hused htop
    have hbytes : ((addrArr.map le32).flatten ++ bs).length = 4 * addrArr.length + bs.length := by
      rw [length_append, length_addrs]
    unfold pushAddrs
    rw [ih (by omega) (by omega), ok_bind, push_image (by rw [length_le32]; omega)
      (by rw [length_le32]; omega), length_le32, length_cons, map_cons,
      flatten_cons, append_assoc, Nat.add_assoc, Nat.mul_add]

theorem length_addrs_eq : (addrs top toks).length = toks.length := by
  induction toks with
  | nil => rfl
  | cons tok toks ih => rw [addrs, length_cons, ih, length_cons]

theorem padding_lt (toks : List (List UInt8)) : padding toks < 4 := Nat.mod_lt _ (by decide)

theorem length_lowImage (toks : List (List UInt8)) :
    (lowImage toks).length = padding toks + (strings toks).flatten.length := by
  have hlt := padding_lt toks
  rw [lowImage, length_append, length_take, length_le32, min_eq_left (by omega)]

theorem length_argvImage_eq (toks : List (List UInt8)) :
    (argvImage toks).length = 4 * toks.length + (4 + (lowImage toks).length) := by
  rw [argvImage, length_append, length_addrs, length_addrs_eq, length_append, length_le32]

theorem length_argvImage (toks : List (List UInt8)) :
    (argvImage toks).length + 12 = imageSize toks := by
  rw [length_argvImage_eq, length_lowImage, imageSize]
  omega

theorem length_stackImage (toks : List (List UInt8)) :
    (stackImage toks).length = imageSize toks := by
  rw [stackImage, length_append, length_append, length_append, length_le32,
    length_le32, length_le32, ← length_argvImage]
  omega

theorem align_image (hused : (lowImage toks).length ≤ stackLimit) :
    align (image m physBase (strings toks).flatten (strings toks).flatten.length) =
      .ok (image m physBase (lowImage toks) (lowImage toks).length) := by
  have htop : stackLimit ≤ physBase := by decide
  have hdiff : physBase - (strings toks).flatten.length - (physBase - (strings toks).flatten.length -
      (physBase - (strings toks).flatten.length) % 4) = padding toks := by
    unfold padding
    omega
  have hlow := length_lowImage toks
  have hzeros : ((le32 0).take (padding toks)).length = padding toks := by
    have hlt := padding_lt toks
    rw [length_take, length_le32, min_eq_left (by omega)]
  unfold align
  dsimp only [image_esp]
  rw [hdiff, push_image (by omega) (by omega), hlow, hzeros, Nat.add_comm]
  rfl

theorem pushFrame_image (hused : used + 8 ≤ stackLimit) (hsize : imageSize toks ≤ stackLimit) :
    pushFrame (image m physBase (argvImage toks) used) toks.length =
      .ok (image m physBase (stackImage toks) (used + 4 + 4)) := by
  have htop : stackLimit ≤ physBase := by decide
  have hargv := length_argvImage toks
  unfold pushFrame
  dsimp only [image_esp]
  rw [push_image (by rw [length_le32]; omega) (by rw [length_le32]; omega), ok_bind,
    storeArgc_image (by rw [length_append, length_le32]; omega),
    push_image (by rw [length_le32, length_le32]; omega)
      (by simp only [length_append, length_le32]; omega), length_le32, length_le32]
  rfl

end

/-! ## the whole function -/

/-- **`argument_passing` puts the image of the tokens below `PHYS_BASE`.** -/
theorem argumentPassing_image {m : Nat → UInt8} {s : { a : Nat // physBase ≤ a }}
    {fileName : CString} (hargc : (tokens fileName).length ≤ maxArgc)
    (hsize : imageSize (tokens fileName) ≤ stackLimit) :
    ∃ mem used, argumentPassing m s true physBase fileName =
      .ok (image mem physBase (stackImage (tokens fileName)) used) := by
  obtain ⟨s, hs⟩ := s
  have hcopy : StringAt (write m s (fileName.1 ++ [0])) s fileName.1 := by
    have hlen : fileName.1.length + 1 = (fileName.1 ++ [0]).length := by simp
    unfold StringAt
    rw [hlen, read_write_self]
  obtain ⟨mem, argArr, hrun, htoks, -, -⟩ := tokenLoop_spec (d := [0x20]) hcopy fileName.2
  have htoks : Forall₂ (TokenAt mem [0x20] s fileName.1) argArr (tokens fileName) := htoks
  generalize tokens fileName = toks at htoks hargc hsize ⊢
  have hlen : argArr.length = toks.length := htoks.length_eq
  have htop : stackLimit ≤ physBase := by decide
  have hlow := length_lowImage toks
  have hargv := length_argvImage toks
  have haddrs : (addrs physBase toks).length = toks.length := length_addrs_eq
  have hbelow : (le32 0 ++ lowImage toks).length = 4 + (lowImage toks).length := by
    rw [length_append, length_le32]
  have hsum : imageSize toks = (lowImage toks).length + 4 * (toks.length + 1) + 12 := by
    rw [hlow, imageSize]
    omega
  have hpush := pushTokens_image htoks fileName.2 hs (Nat.lt_succ_self _) (by omega) htop
  rw [image_nil] at hpush
  unfold argumentPassing
  dsimp only
  rw [hrun _ (Nat.lt_succ_self _), if_neg (by simp), Option.getD_some]
  dsimp only
  rw [if_neg (by omega), hpush, ok_bind]
  dsimp only
  rw [align_image (by omega), ok_bind, push_image (by rw [length_le32]; omega)
    (by rw [length_le32]; omega), ok_bind, length_le32, pushAddrs_image (by omega) (by omega),
    ok_bind, hlen]
  exact ⟨mem, _, pushFrame_image (by omega) hsize⟩

/-! ## reading the frame back -/

/-- The pointers of the array at `argv`. -/
def pointers (mem : Nat → UInt8) (argv argc : Nat) : List Nat :=
  (range argc).map fun i => word mem (argv + 4 * i)

/-- The regions of the image, each a start and a length: the frame, the pointers with the null
pointer, the padding and the strings. -/
def regions (mem : Nat → UInt8) (esp : Nat) (toks : List (List UInt8)) : List (Nat × Nat) :=
  let argv := word mem (esp + 8)
  (esp, 12) :: (argv, 4 * (toks.length + 1)) :: (argv + 4 * (toks.length + 1), padding toks) ::
    zipWith (fun p tok => (p, tok.length + 1)) (pointers mem argv toks.length) toks

/-- The memory at `esp`, read as the frame of `_start`, has the tokens as its arguments. -/
structure Decodes (mem : Nat → UInt8) (esp : Nat) (toks : List (List UInt8)) : Prop where
  aligned : esp % 4 = 0
  returnAddress : word mem esp = 0
  argc : word mem (esp + 4) = toks.length
  argvEnd : word mem (word mem (esp + 8) + 4 * toks.length) = 0
  argument : ∀ i (_ : i < toks.length),
    StringAt mem (word mem (word mem (esp + 8) + 4 * i)) toks[i]
  disjoint : (regions mem esp toks).Pairwise fun r q => r.1 + r.2 ≤ q.1
  inside : ∀ r ∈ regions mem esp toks, esp ≤ r.1 ∧ r.1 + r.2 ≤ physBase

section
variable {m : Nat → UInt8} {top i : Nat} {pre post : List UInt8} {toks : List (List UInt8)}

theorem length_strings : (strings toks).length = toks.length := length_map _

theorem getElem_addrs (hi : i < (addrs top toks).length) :
    (addrs top toks)[i] = top - ((strings toks).drop i).flatten.length := by
  induction toks generalizing i with
  | nil => cases hi
  | cons tok toks ih =>
    cases i with
    | zero => rfl
    | succ i => exact ih (Nat.lt_of_succ_lt_succ hi)

theorem tiles_strings (h : (strings toks).flatten.length ≤ top) :
    Tiles (top - (strings toks).flatten.length)
      (zipWith (fun p tok => (p, tok.length + 1)) (addrs top toks) toks) top := by
  induction toks with
  | nil => rfl
  | cons tok toks ih =>
    rw [strings_cons, length_append] at h
    have hnext : top - (strings (tok :: toks)).flatten.length + (tok.length + 1) =
        top - (strings toks).flatten.length := by
      rw [strings_cons, length_append] 
      simp only [length_append, length_singleton] at h ⊢
      omega
    refine ⟨rfl, ?_⟩
    rw [hnext]
    exact ih (by omega)

/-- The final memory. -/
abbrev finalMem (m : Nat → UInt8) (toks : List (List UInt8)) : Nat → UInt8 :=
  below m physBase (stackImage toks)

/-- The final stack pointer. -/
abbrev finalEsp (toks : List (List UInt8)) : Nat := physBase - (stackImage toks).length

theorem argv_lt (toks : List (List UInt8)) : argv toks < 2 ^ 32 :=
  lt_of_le_of_lt (Nat.sub_le _ _) (by decide)

variable (hsize : imageSize toks ≤ stackLimit)
include hsize

theorem stackImage_fits : (stackImage toks).length ≤ physBase := by
  have htop : stackLimit ≤ physBase := by decide
  have hlen := length_stackImage toks
  omega

theorem argvImage_fits : (argvImage toks).length + 12 ≤ physBase := by
  have hfits := stackImage_fits hsize
  rwa [length_stackImage, ← length_argvImage] at hfits

theorem argv_eq : argv toks = finalEsp toks + 12 := by
  have hfits := stackImage_fits hsize
  have hall := length_stackImage toks
  have hargv := length_argvImage toks
  unfold argv finalEsp
  omega

/-- The frame is aligned: strings and padding together are. -/
theorem finalEsp_aligned : finalEsp toks % 4 = 0 := by
  have hfits := stackImage_fits hsize
  have hall := length_stackImage toks
  unfold finalEsp
  rw [hall] at hfits ⊢
  unfold imageSize padding at hfits ⊢
  omega

theorem word_finalMem {a v : Nat} (himage : stackImage toks = pre ++ (le32 v ++ post))
    (ha : a + 4 + post.length = physBase) (hv : v < 2 ^ 32) : word (finalMem m toks) a = v := by
  have hfits := stackImage_fits hsize
  unfold finalMem
  rw [himage] at hfits ⊢
  refine word_downward hfits ?_ hv
  rw [length_append, length_le32]
  omega

theorem word_returnAddress : word (finalMem m toks) (finalEsp toks) = 0 := by
  have himage : stackImage toks =
      [] ++ (le32 0 ++ (le32 toks.length ++ (le32 (argv toks) ++ argvImage toks))) := rfl
  refine word_finalMem hsize himage ?_ (by decide)
  have hargv := argv_eq hsize
  have hfits := argvImage_fits hsize
  unfold argv at hargv
  simp only [length_append, length_le32]
  omega

theorem word_argc (hargc : toks.length ≤ maxArgc) :
    word (finalMem m toks) (finalEsp toks + 4) = toks.length := by
  have himage : stackImage toks =
      le32 0 ++ (le32 toks.length ++ (le32 (argv toks) ++ argvImage toks)) := rfl
  have hmax : maxArgc < 2 ^ 32 := by decide
  refine word_finalMem hsize himage ?_ (by omega)
  have hargv := argv_eq hsize
  have hfits := argvImage_fits hsize
  unfold argv at hargv
  rw [length_append, length_le32]
  omega

theorem word_argv : word (finalMem m toks) (finalEsp toks + 8) = argv toks := by
  have himage : stackImage toks =
      (le32 0 ++ le32 toks.length) ++ (le32 (argv toks) ++ argvImage toks) :=
    (append_assoc ..).symm
  have hargv := argv_eq hsize
  have hfits := argvImage_fits hsize
  refine word_finalMem hsize himage ?_ (argv_lt toks)
  unfold argv at hargv
  omega

theorem word_argvEnd : word (finalMem m toks) (argv toks + 4 * toks.length) = 0 := by
  have himage : stackImage toks =
      (le32 0 ++ (le32 toks.length ++ (le32 (argv toks) ++
        ((addrs physBase toks).map le32).flatten))) ++ (le32 0 ++ lowImage toks) := by
    unfold stackImage argvImage
    simp only [append_assoc]
  refine word_finalMem hsize himage ?_ (by decide)
  have hfits := argvImage_fits hsize
  have hlen := length_argvImage_eq toks
  unfold argv
  omega

theorem word_argument (hi : i < (addrs physBase toks).length) :
    word (finalMem m toks) (argv toks + 4 * i) = (addrs physBase toks)[i] := by
  have hfits := stackImage_fits hsize
  have himage : stackImage toks = (le32 0 ++ (le32 toks.length ++ le32 (argv toks))) ++
      (((addrs physBase toks).map le32).flatten ++ (le32 0 ++ lowImage toks)) := by
    unfold stackImage argvImage
    simp only [append_assoc]
  have hi' : i < ((addrs physBase toks).map le32).length := by rwa [length_map]
  have hbehind : argv toks + 4 * i + ((((addrs physBase toks).map le32).drop i).flatten ++
      (le32 0 ++ lowImage toks)).length = physBase := by
    have hargv := argvImage_fits hsize
    have hlen := length_argvImage_eq toks
    rw [length_addrs_eq] at hi
    rw [← map_drop, length_append, length_addrs, length_drop, length_addrs_eq,
      length_append, length_le32]
    unfold argv
    omega
  rw [himage] at hfits
  have hread : read (finalMem m toks) (argv toks + 4 * i) 4 =
      ((addrs physBase toks).map le32)[i] := by
    unfold finalMem
    rw [himage]
    exact read_part hi' hfits hbehind (by rw [getElem_map, length_le32])
  rw [word, hread, getElem_map, ofLe_le32]
  rw [getElem_addrs hi]
  exact lt_of_le_of_lt (Nat.sub_le _ _) (by decide)

theorem stringAt_addr (hi : i < toks.length) (hi' : i < (addrs physBase toks).length) :
    StringAt (finalMem m toks) (addrs physBase toks)[i] toks[i] := by
  have hfits := stackImage_fits hsize
  have himage : stackImage toks = (le32 0 ++ (le32 toks.length ++ (le32 (argv toks) ++
      (((addrs physBase toks).map le32).flatten ++ (le32 0 ++ (le32 0).take (padding toks)))))) ++
        ((strings toks).flatten ++ []) := by
    unfold stackImage argvImage lowImage
    simp only [append_assoc, append_nil]
  have hi'' : i < (strings toks).length := by rwa [length_strings]
  have hstring : (strings toks)[i] = toks[i] ++ [0] := getElem_map ..
  have hbehind : physBase - ((strings toks).drop i).flatten.length +
      (((strings toks).drop i).flatten ++ []).length = physBase := by
    have hsplit : (strings toks).flatten =
        ((strings toks).take i).flatten ++ ((strings toks).drop i).flatten := by
      rw [← flatten_append, take_append_drop]
    rw [length_stackImage, imageSize, hsplit, length_append] at hfits
    rw [append_nil]
    omega
  rw [himage] at hfits
  unfold StringAt finalMem
  rw [himage, getElem_addrs hi', ← hstring]
  exact read_part hi'' hfits hbehind (by rw [hstring, length_append, length_singleton])

theorem pointers_eq : pointers (finalMem m toks) (argv toks) toks.length = addrs physBase toks := by
  unfold pointers
  refine ext_getElem ?_ fun i h₁ h₂ => ?_
  · rw [length_map, length_range, length_addrs_eq]
  · rw [getElem_map, getElem_range, word_argument hsize h₂]

/-- The regions fill the addresses from the stack pointer to `PHYS_BASE`. -/
theorem tiles_regions : Tiles (finalEsp toks) (regions (finalMem m toks) (finalEsp toks) toks)
    physBase := by
  have hargv := argv_eq hsize
  have hfits := argvImage_fits hsize
  have hlen := length_argvImage_eq toks
  have hlow := length_lowImage toks
  have hstart : finalEsp toks + 12 + 4 * (toks.length + 1) + padding toks =
      physBase - (strings toks).flatten.length := by
    rw [← hargv]
    unfold argv
    omega
  unfold regions
  rw [word_argv hsize]
  dsimp only
  rw [pointers_eq hsize]
  refine ⟨rfl, hargv, ?_, ?_⟩
  · rw [hargv]
  · dsimp only
    rw [hstart]
    exact tiles_strings (by omega)

end

/-- The command line `ab  c`, with two blanks. -/
def cmdAbC : CString := ⟨[97, 98, 32, 32, 99], by decide⟩

end Pintos.Arguments
