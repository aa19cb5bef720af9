import Pintos.Lib.Except

/-!
# Pintos.Threads.Init

The options of the kernel command line (`parse_options` in `threads/init.c`) and the random
numbers that one of them seeds (`lib/random.c`).

`parse_options` ends with `random_init (rtc_get_time ())`.  A comment says that this has no effect
after a `-rs` option; but `random_init` starts afresh each time, so that the numbers depend on the
clock whatever the options are (`not_reproducible`).
-/

namespace Pintos.Init

/-! ## random numbers -/

/-- The RC4 state of `lib/random.c`. -/
structure Random where
  s : List UInt8
  i : UInt8
  j : UInt8

def swapByte (s : List UInt8) (a b : UInt8) : List UInt8 :=
  (s.set a.toNat (s.getD b.toNat 0)).set b.toNat (s.getD a.toNat 0)

/-- One round of the second loop of `random_init`; the seed is a word in memory. -/
def mix (seed : UInt32) (st : List UInt8 × UInt8) (i : Nat) : List UInt8 × UInt8 :=
  let j := st.2 + (st.1.getD i 0 + (seed >>> (8 * UInt32.ofNat (i % 4))).toUInt8)
  (swapByte st.1 (UInt8.ofNat i) j, j)

def randomInit (seed : UInt32) : Random :=
  ⟨((List.range 256).foldl (mix seed) ((List.range 256).map UInt8.ofNat, 0)).1, 0, 0⟩

/-- The bytes that `random_bytes` writes, after `random_init`. -/
def randomBytes : Nat → Random → List UInt8
  | 0, _ => []
  | size + 1, r =>
    let i := r.i + 1
    let j := r.j + r.s.getD i.toNat 0
    let s := swapByte r.s i j
    let k := s.getD i.toNat 0 + s.getD j.toNat 0
    s.getD k.toNat 0 :: randomBytes size ⟨s, i, j⟩

/-! ## options -/

inductive Shutdown
  | none
  | powerOff
  | reboot

/-- What the options set. -/
structure Options where
  shutdown : Shutdown
  formatFilesys : Bool
  filesysBdevName : Option (List Char)
  scratchBdevName : Option (List Char)
  swapBdevName : Option (List Char)
  threadMlfqs : Bool
  userPageLimit : Int
  random : Option Random

/-- The options do not return: `usage`, a panic for an unknown option, and the `ASSERT` of
`atoi`. -/
inductive Stop
  | usage
  | unknown (name : List Char)
  | atoi

/-- `atoi`, of a string or a null pointer. -/
def atoi : Option (List Char) → Except Stop Int
  | none => .error .atoi
  | some s =>
    let s := s.dropWhile fun c => c ∈ [' ', '\t', '\n', '\r', '\x0b', '\x0c']
    let digits := fun s : List Char => (s.takeWhile Char.isDigit).foldl
      (fun value c => value * 10 + (c.toNat - '0'.toNat : Int)) 0
    match s with
    | '+' :: s => .ok (digits s)
    | '-' :: s => .ok (-digits s)
    | s => .ok (digits s)

/-- One option: its name up to the first `=`, and what comes behind. -/
def parseOption (o : Options) (arg : List Char) : Except Stop Options :=
  let name := arg.takeWhile (· ≠ '=')
  let rest := (arg.dropWhile (· ≠ '=')).drop 1
  let value := if rest = [] then none else some rest
  match String.ofList name with
  | "-h" => .error .usage
  | "-q" => .ok { o with shutdown := .powerOff }
  | "-r" => .ok { o with shutdown := .reboot }
  | "-f" => .ok { o with formatFilesys := true }
  | "-filesys" => .ok { o with filesysBdevName := value }
  | "-scratch" => .ok { o with scratchBdevName := value }
  | "-swap" => .ok { o with swapBdevName := value }
  | "-rs" => do
      let seed ← atoi value
      return { o with random := some (randomInit (UInt32.ofInt seed)) }
  | "-mlfqs" => .ok { o with threadMlfqs := true }
  | "-ul" => do
      let limit ← atoi value
      return { o with userPageLimit := limit }
  | _ => .error (.unknown name)

/-- The loop of `parse_options`. -/
def parseLoop : Options → List (List Char) → Except Stop (Options × List (List Char))
  | o, ('-' :: arg) :: argv => do
      let o ← parseOption o ('-' :: arg)
      parseLoop o argv
  | o, argv => .ok (o, argv)

/-- `parse_options`, with what `rtc_get_time` returns. -/
def parseOptions (o : Options) (argv : List (List Char)) (time : UInt32) :
    Except Stop (Options × List (List Char)) := do
  let (o, argv) ← parseLoop o argv
  return ({ o with random := some (randomInit time) }, argv)

/-! ## reproducible runs -/

/-- The bytes that `random_bytes` writes after the options have been parsed. -/
def stream (o : Options) (argv : List (List Char)) (time : UInt32) (size : Nat) :
    Option (List UInt8) :=
  (parseOptions o argv time).toOption.bind fun r => r.1.random.map (randomBytes size)

/-- Two runs that differ only in the clock produce the same stream. -/
def Reproducible (o : Options) (argv : List (List Char)) : Prop :=
  ∀ time time' size, stream o argv time size = stream o argv time' size

theorem stream_of_parseLoop {o o' : Options} {argv rest : List (List Char)}
    (h : parseLoop o argv = .ok (o', rest)) (time : UInt32) (size : Nat) :
    stream o argv time size = some (randomBytes size (randomInit time)) := by
  unfold stream parseOptions
  rw [h]
  rfl

/-- The streams of two clocks that are a second apart. -/
theorem randomBytes_differ : randomBytes 1 (randomInit 0) ≠ randomBytes 1 (randomInit 1) := by
  decide +kernel

/-- **No command line makes runs reproducible**, with or without `-rs`. -/
theorem not_reproducible {o o' : Options} {argv rest : List (List Char)}
    (h : parseLoop o argv = .ok (o', rest)) : ¬ Reproducible o argv := by
  intro hsame
  have heq := hsame 0 1 1
  rw [stream_of_parseLoop h, stream_of_parseLoop h] at heq
  exact randomBytes_differ (Option.some.inj heq)

/-- The values at the start. -/
def defaults : Options := ⟨.none, false, none, none, none, false, 2 ^ 31 - 1, none⟩

theorem not_reproducible_quiet : ¬ Reproducible defaults ["-q".toList, "-rs=7".toList] :=
  not_reproducible (show parseLoop defaults _ = .ok ({ defaults with
    shutdown := .powerOff, random := some (randomInit 7) }, []) from rfl)

/-- With `-rs=7`, the first byte depends on the clock. -/
theorem seed_overridden :
    stream defaults ["-rs=7".toList] 0 1 ≠ stream defaults ["-rs=7".toList] 1 1 := by
  have h : parseLoop defaults ["-rs=7".toList] =
      .ok ({ defaults with random := some (randomInit 7) }, []) := rfl
  rw [stream_of_parseLoop h, stream_of_parseLoop h]
  exact fun heq => randomBytes_differ (Option.some.inj heq)

end Pintos.Init
