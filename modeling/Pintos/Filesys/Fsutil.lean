import Pintos.Filesys.Ustar

/-!
# Pintos.Filesys.Fsutil

`fsutil_append` (`filesys/fsutil.c`): files are copied to an archive on the scratch device.

Each call writes a header, the data and a trailer that the next call writes over.  Both
sectors of the trailer are meant to be zero, but the second `block_write` goes to the same
sector as the first and takes its 512 bytes from `buffer + 1`, so that its last byte is
whatever lies behind the buffer, and the sector after it is never written
(`archive_wellFormed_iff`).
-/

namespace Pintos.Ustar

open Bytes Fs List List

/-! ## the model -/

/-- A file of the file system, as `fsutil_append` reads it; `reads i` when the `i`th
`file_read` returns all bytes that it is asked for. -/
structure Source where
  bytes : List UInt8
  length_lt : bytes.length < 2 ^ 31
  reads : Nat → Bool

/-- The arguments of a call: the name, the file that `filesys_open` finds, whether there is
memory for the buffer, and the byte behind the buffer. -/
structure Append where
  fileName : CString
  file : Option Source
  memory : Bool
  beyond : UInt8

/-- The `PANIC`s of `fsutil_append`, and the assertion of `block_write`. -/
inductive Panic
  | buffer
  | openFailed
  | nameTooLong
  | outOfSpace
  | readFailed
  | assertion (a : Assertion)
deriving DecidableEq

/-- The scratch device and `sector`. -/
structure Archive where
  dev : Device
  sector : Nat

open Archive

/-- `block_write (dst, sector, buffer)`. -/
def Archive.put (a : Archive) (buffer : List UInt8) : Except Panic Archive :=
  match blockWrite a.dev a.sector buffer with
  | .ok dev => .ok { a with dev }
  | .error e => .error (.assertion e)

/-- `sector++`. -/
def Archive.next (a : Archive) : Archive := { a with sector := a.sector + 1 }

/-- The loop over the data. -/
def copyLoop (reads : Nat → Bool) : Nat → Nat → Archive → List UInt8 → Except Panic Archive
  | 0, _, a, _ => .ok a
  | fuel + 1, i, a, bytes =>
    if bytes.length > 0 then
      let chunkSize := min bytes.length blockSectorSize
      if a.sector ≥ a.dev.sectors then
        .error .outOfSpace
      else if !reads i then
        .error .readFailed
      else do
        let a ← a.put (bytes.take chunkSize ++ replicate (blockSectorSize - chunkSize) 0)
        copyLoop reads fuel (i + 1) a.next (bytes.drop chunkSize)
    else
      .ok a

/-- `fsutil_append`. -/
def fsutilAppend (a : Archive) (c : Append) : Except Panic Archive :=
  if c.memory then
    match c.file with
    | none => .error .openFailed
    | some src =>
      match ustarMakeHeader c.fileName .regular src.bytes.length with
      | none => .error .nameTooLong
      | some h => do
          let a ← a.put (read h 0 headerSize)
          let a ← copyLoop src.reads src.bytes.length 0 a.next src.bytes
          let a ← a.put (replicate blockSectorSize 0)
          a.put (replicate (blockSectorSize - 1) 0 ++ [c.beyond])
  else
    .error .buffer

/-- Calls one after the other. -/
def appendAll (a : Archive) : List Append → Except Panic Archive
  | [] => .ok a
  | c :: cs => do
      let a ← fsutilAppend a c
      appendAll a cs

/-! ## archives -/

/-- The header in a sector. -/
def headerAt (dev : Device) (sector : Nat) : Header :=
  fun i => dev.bytes (sector * blockSectorSize + i)

/-- The sector is all zero. -/
def ZeroSector (dev : Device) (sector : Nat) : Prop :=
  read dev.bytes (sector * blockSectorSize) blockSectorSize = replicate blockSectorSize 0

/-- The number of data sectors of a file. -/
def dataSectors (bytes : List UInt8) : Nat := (bytes.length + blockSectorSize - 1) / blockSectorSize

/-- The data of a file with the zeros behind it. -/
def padded (bytes : List UInt8) : List UInt8 :=
  bytes ++ replicate (dataSectors bytes * blockSectorSize - bytes.length) 0

/-- The device holds the files one after the other, from sector `k` to sector `e`. -/
inductive Holds (dev : Device) : Nat → List (CString × List UInt8) → Nat → Prop
  | nil {k : Nat} : Holds dev k [] k
  | cons {k e : Nat} {fileName : CString} {bytes : List UInt8} {files : List (CString × List UInt8)} :
      ustarParseHeader (headerAt dev k) =
        .ok (some ⟨stripAntisocialPrefixes fileName.val, .regular, bytes.length⟩) →
      read dev.bytes ((k + 1) * blockSectorSize) (dataSectors bytes * blockSectorSize) =
        padded bytes →
      Holds dev (k + 1 + dataSectors bytes) files e → Holds dev k ((fileName, bytes) :: files) e

/-- **A well-formed archive**: the files, and two sectors of zeros. -/
def WellFormed (dev : Device) (files : List (CString × List UInt8)) : Prop :=
  ∃ e, Holds dev 0 files e ∧ e + 1 < dev.sectors ∧ ZeroSector dev e ∧ ZeroSector dev (e + 1)

/-- The files of a list of calls. -/
def filesOf (cs : List Append) : List (CString × List UInt8) :=
  cs.map fun c => (c.fileName, (c.file.map Source.bytes).getD [])

/-- The number of sectors that files take. -/
def archiveSectors : List (CString × List UInt8) → Nat
  | [] => 0
  | f :: files => 1 + dataSectors f.2 + archiveSectors files

/-! ## one call -/

variable {a a' : Archive} {c : Append} {cs : List Append} {buffer bytes : List UInt8}
  {reads : Nat → Bool} {fuel i k e : Nat} {dev dev' : Device}
  {files : List (CString × List UInt8)}

/-- The device after bytes have been written from a sector on. -/
def Archive.written (a : Archive) (buffer : List UInt8) : Device :=
  { a.dev with bytes := write a.dev.bytes (a.sector * blockSectorSize) buffer }

theorem written_append {bs cs : List UInt8} {n : Nat} (hlen : bs.length = n * blockSectorSize) :
    written ⟨a.written bs, a.sector + n⟩ cs = a.written (bs ++ cs) := by
  rw [written, written, written, write_append, hlen, add_mul]

/-- The second of two buffers for the same sector is what is written. -/
theorem written_twice {bs cs : List UInt8} (hlen : bs.length = cs.length) :
    written ⟨a.written bs, a.sector⟩ cs = a.written cs := by
  have hbytes : write (write a.dev.bytes (a.sector * blockSectorSize) bs)
      (a.sector * blockSectorSize) cs = write a.dev.bytes (a.sector * blockSectorSize) cs := by
    funext x
    by_cases hlt : x < a.sector * blockSectorSize
    · rw [write_of_lt hlt, write_of_lt hlt, write_of_lt hlt]
    · by_cases hin : x < a.sector * blockSectorSize + cs.length
      · obtain ⟨j, rfl⟩ := Nat.exists_eq_add_of_le (Nat.not_lt.mp hlt)
        have hj : j < cs.length := by omega
        rw [write_add hj, write_add hj]
      · rw [write_of_le (by omega), write_of_le (by omega), write_of_le (by omega)]
  rw [written, written, written, hbytes]

theorem read_written {bs : List UInt8} {j n : Nat} (h : j + n ≤ bs.length) :
    read (a.written bs).bytes (a.sector * blockSectorSize + j) n = (bs.drop j).take n := by
  rw [written, read_write_of_subset (Nat.le_add_right _ _) (by omega), Nat.add_sub_cancel_left]

theorem read_written_parts (as bs cs : List UInt8) :
    read (a.written (as ++ bs ++ cs)).bytes (a.sector * blockSectorSize) as.length = as ∧
    read (a.written (as ++ bs ++ cs)).bytes (a.sector * blockSectorSize + as.length) bs.length = bs ∧
    read (a.written (as ++ bs ++ cs)).bytes (a.sector * blockSectorSize + (as.length + bs.length))
      cs.length = cs := by
  have hlen : (as ++ bs ++ cs).length = as.length + bs.length + cs.length := by
    rw [length_append, length_append]
  have h₁ : 0 + as.length ≤ (as ++ bs ++ cs).length := by omega
  have h₂ : as.length + bs.length ≤ (as ++ bs ++ cs).length := by omega
  have h₃ : as.length + bs.length + cs.length ≤ (as ++ bs ++ cs).length := by omega
  refine ⟨?_, ?_, ?_⟩
  · have hpart := read_written (a := a) h₁
    rw [Nat.add_zero, drop_zero] at hpart
    rw [hpart, append_assoc, take_left]
  · rw [read_written h₂, append_assoc, drop_left, take_left]
  · rw [read_written h₃, ← length_append, drop_left, take_length]

theorem Archive.put_ok (h : a.put buffer = .ok a') :
    a.sector < a.dev.sectors ∧ a' = ⟨a.written buffer, a.sector⟩ := by
  unfold put blockWrite at h
  by_cases hlt : a.sector < a.dev.sectors
  · rw [if_pos hlt] at h
    cases h
    exact ⟨hlt, rfl⟩
  · rw [if_neg hlt] at h
    cases h

theorem padded_eq (h : 0 < bytes.length) :
    dataSectors bytes = 1 + dataSectors (bytes.drop (min bytes.length blockSectorSize)) ∧
    padded bytes = bytes.take (min bytes.length blockSectorSize) ++
      replicate (blockSectorSize - min bytes.length blockSectorSize) 0 ++
      padded (bytes.drop (min bytes.length blockSectorSize)) := by
  have hsectors : dataSectors bytes =
      1 + dataSectors (bytes.drop (min bytes.length blockSectorSize)) := by
    unfold dataSectors blockSectorSize
    rw [length_drop]
    omega
  refine ⟨hsectors, ?_⟩
  unfold padded
  rw [hsectors]
  by_cases hle : bytes.length ≤ blockSectorSize
  · -- the last sector
    rw [Nat.min_eq_left hle, take_length, drop_length]
    have hnone : dataSectors [] = 0 := by decide
    rw [hnone]
    simp
  · have hmin : min bytes.length blockSectorSize = blockSectorSize := by omega
    rw [hmin, Nat.sub_self, replicate_zero, append_nil, ← append_assoc,
      take_append_drop, length_drop]
    have hcount : (1 + dataSectors (bytes.drop blockSectorSize)) * blockSectorSize - bytes.length =
        dataSectors (bytes.drop blockSectorSize) * blockSectorSize -
          (bytes.length - blockSectorSize) := by
      unfold blockSectorSize at *
      omega
    rw [hcount]

@[simp] theorem written_padded_nil (a : Archive) : a.written (padded []) = a.dev := by
  have hnil : padded [] = [] := by decide
  rw [hnil, written, write_nil]

/-- **The data is written, padded to whole sectors.** -/
theorem copyLoop_ok (hfuel : bytes.length ≤ fuel) (h : copyLoop reads fuel i a bytes = .ok a') :
    a' = ⟨a.written (padded bytes), a.sector + dataSectors bytes⟩ := by
  induction fuel generalizing i a bytes with
  | zero =>
    obtain rfl : bytes = [] := length_eq_zero_iff.mp (by omega)
    cases h
    rw [written_padded_nil]
    rfl
  | succ fuel ih =>
    rw [copyLoop] at h
    split at h
    · next hpos =>
      split at h
      · cases h
      · split at h
        · cases h
        · obtain ⟨a₁, hput, hrest⟩ := bind_eq_ok h
          obtain ⟨-, rfl⟩ := put_ok hput
          obtain ⟨hsectors, hpadded⟩ := padded_eq hpos
          have hnext := ih (by
            rw [length_drop]
            unfold blockSectorSize
            omega) hrest
          have hlen : (bytes.take (min bytes.length blockSectorSize) ++ replicate
              (blockSectorSize - min bytes.length blockSectorSize) (0 : UInt8)).length =
              blockSectorSize := by
            rw [length_append, length_take, length_replicate]
            omega
          rw [hnext, hpadded, hsectors, ← add_assoc,
            ← written_append (hlen.trans (Nat.one_mul _).symm)]
          rfl
    · next hpos =>
      obtain rfl : bytes = [] := length_eq_zero_iff.mp (by omega)
      cases h
      rw [written_padded_nil]
      rfl

theorem length_padded (bytes : List UInt8) :
    (padded bytes).length = dataSectors bytes * blockSectorSize := by
  rw [padded, length_append, length_replicate]
  unfold dataSectors blockSectorSize
  omega

/-- What is behind the data after a call: 511 zeros and the byte behind the buffer. -/
def trailer (c : Append) : List UInt8 := replicate (blockSectorSize - 1) 0 ++ [c.beyond]

theorem length_trailer (c : Append) : (trailer c).length = blockSectorSize := by
  rw [trailer, length_append, length_replicate]
  rfl

/-- **A call writes a header, the padded data and one sector.** -/
theorem fsutilAppend_ok (h : fsutilAppend a c = .ok a') :
    ∃ src hd, c.file = some src ∧
      ustarMakeHeader c.fileName .regular src.bytes.length = some hd ∧
      a' = ⟨a.written (read hd 0 headerSize ++ padded src.bytes ++ trailer c),
        a.sector + 1 + dataSectors src.bytes⟩ := by
  unfold fsutilAppend at h
  split at h
  · split at h
    · cases h
    · next src hfile =>
      split at h
      · cases h
      · next hd hmake =>
        refine ⟨src, hd, hfile, hmake, ?_⟩
        obtain ⟨a₁, hput, h⟩ := bind_eq_ok h
        obtain ⟨-, rfl⟩ := put_ok hput
        obtain ⟨a₂, hcopy, h⟩ := bind_eq_ok h
        have hcopied := copyLoop_ok le_rfl hcopy
        subst hcopied
        obtain ⟨a₃, hzeros, h⟩ := bind_eq_ok h
        obtain ⟨-, rfl⟩ := put_ok hzeros
        obtain ⟨-, rfl⟩ := put_ok h
        have hlen : (read hd 0 headerSize).length = 1 * blockSectorSize := length_read
        have hpadded : (read hd 0 headerSize ++ padded src.bytes).length =
            (1 + dataSectors src.bytes) * blockSectorSize := by
          rw [length_append, hlen, length_padded, add_mul]
        have htwice : (replicate blockSectorSize (0 : UInt8)).length = (trailer c).length :=
          length_replicate.trans (length_trailer c).symm
        rw [← written_append hpadded, ← written_append hlen, ← add_assoc,
          ← written_twice htwice]
        rfl
  · cases h

/-! ## all calls -/

theorem Holds.end_eq (h : Holds dev k files e) : e = k + archiveSectors files := by
  induction h with
  | nil => rfl
  | cons _ _ _ ih =>
    rw [ih, archiveSectors]
    dsimp only
    omega

theorem Holds.congr (h : Holds dev k files e)
    (heq : ∀ x, k * blockSectorSize ≤ x → x < e * blockSectorSize → dev'.bytes x = dev.bytes x) :
    Holds dev' k files e := by
  induction h with
  | nil => exact .nil
  | @cons k e fileName bytes files hparse hdata hrest ih =>
    have hend := hrest.end_eq
    have hstart : k * blockSectorSize ≤ (k + 1) * blockSectorSize :=
      Nat.mul_le_mul_right _ (Nat.le_succ k)
    have hnext : (k + 1 + dataSectors bytes) * blockSectorSize =
        (k + 1) * blockSectorSize + dataSectors bytes * blockSectorSize := add_mul ..
    have hlast : (k + 1 + dataSectors bytes) * blockSectorSize ≤ e * blockSectorSize :=
      Nat.mul_le_mul_right _ (by omega)
    refine .cons ?_ ?_ (ih fun x hle hlt => heq x (by omega) hlt)
    · rw [← hparse]
      refine ustarParseHeader_congr fun i hi => heq _ (Nat.le_add_right _ _) ?_
      have hsize : i < blockSectorSize := hi
      rw [Nat.succ_mul] at hnext
      omega
    · rw [← hdata]
      exact read_congr fun i hi => heq _ (by omega) (by omega)

theorem Holds.append {files' : List (CString × List UInt8)} {e' : Nat} (h : Holds dev k files e)
    (h' : Holds dev e files' e') : Holds dev k (files ++ files') e' := by
  induction h with
  | nil => exact h'
  | cons hparse hdata _ ih => exact .cons hparse hdata (ih h')

/-- What calls leave behind. -/
structure Appended (a a' : Archive) (cs : List Append) : Prop where
  sectors : a'.dev.sectors = a.dev.sectors
  holds : Holds a'.dev a.sector (filesOf cs) a'.sector
  before : ∀ x < a.sector * blockSectorSize, a'.dev.bytes x = a.dev.bytes x
  behind : ∀ x, (a'.sector + 1) * blockSectorSize ≤ x → a'.dev.bytes x = a.dev.bytes x
  last : ∀ c, cs.getLast? = some c →
    read a'.dev.bytes (a'.sector * blockSectorSize) blockSectorSize = trailer c

theorem fsutilAppend_appended (h : fsutilAppend a c = .ok a') : Appended a a' [c] := by
  obtain ⟨src, hd, hfile, hmake, rfl⟩ := fsutilAppend_ok h
  have hhd : (read hd 0 headerSize).length = blockSectorSize := length_read
  have hlen := length_padded src.bytes
  have htrailer := length_trailer c
  obtain ⟨hread₁, hread₂, hread₃⟩ :=
    read_written_parts (read hd 0 headerSize) (padded src.bytes) (trailer c)
  rw [hhd] at hread₁ hread₂ hread₃
  rw [hlen] at hread₂ hread₃
  rw [htrailer] at hread₃
  have hfiles : filesOf [c] = [(c.fileName, src.bytes)] := by
    rw [filesOf, map_singleton, hfile]
    rfl
  have hend : (a.sector + 1 + dataSectors src.bytes) * blockSectorSize = a.sector * blockSectorSize +
      (blockSectorSize + dataSectors src.bytes * blockSectorSize) := by
    rw [add_mul, Nat.succ_mul, add_assoc]
  refine ⟨rfl, ?_, ?_, ?_, ?_⟩
  · rw [hfiles]
    refine .cons ?_ ?_ .nil
    · have hmax : (src.bytes.length : Int) ≤ intMax :=
        Int.ofNat_le.mpr (Nat.le_of_lt_succ src.length_lt)
      have hparse := parse_made (Int.natCast_nonneg _) hmax hmake
      rw [Int.toNat_natCast] at hparse
      refine (ustarParseHeader_congr fun i hi => ?_).trans hparse
      have hbyte := congrArg (fun l => l.getD i 0) hread₁
      have hi' : i < blockSectorSize := hi
      simp only [getD_read hi', getD_read hi, zero_add] at hbyte
      exact hbyte
    · rw [Nat.succ_mul]
      exact hread₂
  · exact fun x hx => write_of_lt hx
  · intro x hx
    refine write_of_le ?_
    rw [length_append, length_append, hhd, hlen, htrailer]
    rw [Nat.succ_mul, hend] at hx
    omega
  · intro c' hc'
    cases hc'
    rw [hend]
    exact hread₃

/-- **Calls in a row.** -/
theorem appendAll_appended (h : appendAll a cs = .ok a') : Appended a a' cs := by
  induction cs generalizing a with
  | nil =>
    cases h
    exact ⟨rfl, .nil, fun _ _ => rfl, fun _ _ => rfl, nofun⟩
  | cons c cs ih =>
    obtain ⟨a₁, hfirst, hrest⟩ := bind_eq_ok h
    have hone := fsutilAppend_appended hfirst
    have hall := ih hrest
    have hend := hone.holds.end_eq
    have hend' := hall.holds.end_eq
    have hle : (a₁.sector + 1) * blockSectorSize ≤ (a'.sector + 1) * blockSectorSize :=
      Nat.mul_le_mul_right _ (by omega)
    have hstart : a.sector * blockSectorSize ≤ a₁.sector * blockSectorSize :=
      Nat.mul_le_mul_right _ (by omega)
    refine ⟨hall.sectors.trans hone.sectors, ?_, ?_, ?_, ?_⟩
    · exact (hone.holds.congr fun x _ hlt => hall.before x hlt).append hall.holds
    · exact fun x hx => (hall.before x (by omega)).trans (hone.before x hx)
    · exact fun x hx => (hall.behind x hx).trans (hone.behind x (by omega))
    · intro c' hc'
      cases cs with
      | nil =>
        cases hrest
        exact hone.last c' hc'
      | cons d ds => exact hall.last c' (getLast?_cons_cons.symm.trans hc')

/-! ## the trailer -/

theorem zeroSector_iff : ZeroSector dev k ↔
    ∀ i < blockSectorSize, dev.bytes (k * blockSectorSize + i) = 0 := by
  rw [ZeroSector, eq_replicate_iff, Bytes.read]
  constructor
  · intro h i hi
    exact h.2 _ (mem_map.mpr ⟨i, mem_range.mpr hi, rfl⟩)
  · intro h
    refine ⟨by rw [length_map, length_range], fun x hx => ?_⟩
    obtain ⟨i, hi, rfl⟩ := mem_map.mp hx
    exact h i (mem_range.mp hi)

theorem trailer_eq_zeros_iff : trailer c = replicate blockSectorSize 0 ↔ c.beyond = 0 := by
  have hsplit : replicate blockSectorSize (0 : UInt8) =
      replicate (blockSectorSize - 1) 0 ++ [0] := replicate_succ'
  rw [trailer, hsplit, append_cancel_left_eq, singleton_inj]

/-- **The archive is well formed exactly when** the byte behind the buffer is zero in the last
call and the sector after the trailer was zero before the first. -/
theorem archive_wellFormed_iff {dev₀ : Device} (h : appendAll ⟨dev₀, 0⟩ (cs ++ [c]) = .ok a)
    (hroom : archiveSectors (filesOf (cs ++ [c])) + 1 < dev₀.sectors) :
    WellFormed a.dev (filesOf (cs ++ [c])) ↔
      c.beyond = 0 ∧ ZeroSector dev₀ (archiveSectors (filesOf (cs ++ [c])) + 1) := by
  have happended := appendAll_appended h
  have hend := happended.holds.end_eq
  rw [zero_add] at hend
  have hlast := happended.last c getLast?_concat
  have hfirst : ZeroSector a.dev a.sector ↔ c.beyond = 0 := by
    rw [ZeroSector, hlast, trailer_eq_zeros_iff]
  have hsecond : ZeroSector a.dev (a.sector + 1) ↔ ZeroSector dev₀ (a.sector + 1) := by
    rw [zeroSector_iff, zeroSector_iff]
    refine forall₂_congr fun i hi => ?_
    rw [happended.behind _ (Nat.le_add_right _ _)]
  rw [← hend] at hroom ⊢
  constructor
  · rintro ⟨e, hholds, -, hz₁, hz₂⟩
    have he := hholds.end_eq
    rw [zero_add, ← hend] at he
    subst he
    exact ⟨hfirst.mp hz₁, hsecond.mp hz₂⟩
  · rintro ⟨hbeyond, hzero⟩
    refine ⟨a.sector, happended.holds, ?_, hfirst.mpr hbeyond, hsecond.mpr hzero⟩
    rwa [happended.sectors]

/-- Appending an empty file `a`. -/
def appendEmpty : Append := ⟨⟨[98], by decide⟩, some ⟨[], by decide, fun _ => true⟩, true, 0⟩

/-- A device of 4 sectors, all of whose bytes are `b`. -/
def filledDevice (b : UInt8) : Device := ⟨4, fun _ => b⟩

theorem appendEmpty_ok (b : UInt8) : ∃ a, appendAll ⟨filledDevice b, 0⟩ [appendEmpty] = .ok a :=
  ⟨_, rfl⟩

/-- On a device of zeros the archive is well formed. -/
theorem archive_wellFormed_zeros :
    ∃ a, appendAll ⟨filledDevice 0, 0⟩ ([] ++ [appendEmpty]) = .ok a ∧
      WellFormed a.dev (filesOf ([] ++ [appendEmpty])) := by
  obtain ⟨a, ha⟩ := appendEmpty_ok 0
  refine ⟨a, ha, (archive_wellFormed_iff ha (by decide)).mpr ⟨rfl, ?_⟩⟩
  exact zeroSector_iff.mpr fun _ _ => rfl

/-- On a device that held other data the second sector of the trailer is not zero. -/
theorem archive_not_wellFormed :
    ∃ a, appendAll ⟨filledDevice 1, 0⟩ [appendEmpty] = .ok a ∧
      archiveSectors (filesOf [appendEmpty]) + 1 < (filledDevice 1).sectors ∧
      ¬ WellFormed a.dev (filesOf [appendEmpty]) := by
  obtain ⟨a, ha⟩ := appendEmpty_ok 1
  refine ⟨a, ha, by decide, ?_⟩
  rintro ⟨e, hholds, -, -, hzero⟩
  have happended := appendAll_appended ha
  have hsector : e = a.sector := hholds.end_eq.trans happended.holds.end_eq.symm
  have hbyte := zeroSector_iff.mp hzero 0 (by decide)
  rw [hsector, happended.behind _ (Nat.le_add_right _ _)] at hbyte
  have hone : (1 : UInt8) = 0 := hbyte
  exact absurd hone (by decide)

end Pintos.Ustar
