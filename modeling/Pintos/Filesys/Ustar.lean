import Pintos.Filesys.Directory

/-!
# Pintos.Filesys.Ustar

Headers of `ustar` archives (`lib/ustar.c`): `ustar_make_header`, `ustar_parse_header`
and the round trip between them (`ustar_round_trip`); `ustar_detects` says what a header
that is accepted guarantees.

A header is given by its bytes, of which the first 512 count.  Every text field is
written by `strlcpy` or `snprintf`, which leave a null byte behind what they write
(`putString`).
-/

namespace Pintos.Ustar

open Bytes Fs List List

/-! ## the format -/

/-- `USTAR_HEADER_SIZE`. -/
def headerSize : Nat := 512

/-- The bytes of a header. -/
abbrev Header : Type := Nat → UInt8

/-- A member of `struct ustar_header`. -/
structure Field where
  ofs : Nat
  size : Nat

abbrev nameField : Field := ⟨0, 100⟩
abbrev modeField : Field := ⟨100, 8⟩
abbrev uidField : Field := ⟨108, 8⟩
abbrev gidField : Field := ⟨116, 8⟩
abbrev sizeField : Field := ⟨124, 12⟩
abbrev mtimeField : Field := ⟨136, 12⟩
abbrev chksumField : Field := ⟨148, 8⟩
abbrev typeflagField : Field := ⟨156, 1⟩
abbrev magicField : Field := ⟨257, 6⟩
abbrev versionField : Field := ⟨263, 2⟩
abbrev unameField : Field := ⟨265, 32⟩
abbrev gnameField : Field := ⟨297, 32⟩
abbrev prefixField : Field := ⟨345, 155⟩

/-- `enum ustar_type`, without the end of the archive. -/
inductive FileType
  | regular
  | directory
deriving DecidableEq

/-- The byte of a type. -/
def FileType.byte : FileType → UInt8
  | .regular => 48
  | .directory => 53

/-- The size that a header gives: a directory has none. -/
def FileType.sizeOf : FileType → Nat → Nat
  | .regular, size => size
  | .directory, _ => 0

/-! ## text -/

/-- Whether the name starts with `/`, `./` or `../`. -/
def antisocial (name : List UInt8) : Bool :=
  [47].isPrefixOf name || [46, 47].isPrefixOf name || [46, 46, 47].isPrefixOf name

/-- The loop of `strip_antisocial_prefixes`. -/
def stripLoop : Nat → List UInt8 → List UInt8
  | 0, name => name
  | fuel + 1, name =>
    if antisocial name then stripLoop fuel ((name.dropWhile (· ≠ 47)).drop 1) else name

/-- `strip_antisocial_prefixes`. -/
def stripAntisocialPrefixes (name : List UInt8) : List UInt8 :=
  let name := stripLoop name.length name
  if name = [] ∨ name = [46, 46] then [46] else name

/-- A digit as a character. -/
def digitChar (d : Nat) : UInt8 := UInt8.ofNat (48 + d)

/-- What `%0<width>o` prints (`format_integer` in `lib/stdio.c`). -/
def formatOctal (width value : Nat) : List UInt8 :=
  let digits := (Nat.digits 8 value).map digitChar
  let digits := digits ++ replicate (1 - digits.length) (digitChar 0)
  replicate (width - digits.length) (digitChar 0) ++ digits.reverse

/-- `strlcpy` and `snprintf` into a field. -/
def putString (h : Header) (f : Field) (text : List UInt8) : Header :=
  write h f.ofs (text.take (f.size - 1) ++ [0])

/-- `calculate_chksum`; the sum of 512 bytes does not overflow. -/
def calculateChksum (h : Header) : Nat :=
  ((range headerSize).map fun i =>
    if chksumField.ofs ≤ i ∧ i < chksumField.ofs + chksumField.size then 32 else (h i).toNat).sum

/-! ## ustar_make_header -/

/-- The header without its checksum. -/
def fillHeader (name : List UInt8) (type : FileType) (size : Int) : Header :=
  let h : Header := fun _ => 0
  let h := putString h nameField name
  let h := putString h modeField
    (formatOctal 7 (match type with | .regular => 0o644 | .directory => 0o755))
  let h := putString h uidField (replicate 7 48)
  let h := putString h gidField (replicate 7 48)
  let h := putString h sizeField (formatOctal 11 (size % 2 ^ 32).toNat)
  let h := putString h mtimeField (formatOctal 11 1136102400)
  let h := write h typeflagField.ofs [type.byte]
  let h := putString h magicField [117, 115, 116, 97, 114]
  let h := write h versionField.ofs [48, 48]
  let h := putString h gnameField [114, 111, 111, 116]
  putString h unameField [114, 111, 111, 116]

/-- `ustar_make_header`. -/
def ustarMakeHeader (fileName : CString) (type : FileType) (size : Int) : Option Header :=
  let name := stripAntisocialPrefixes fileName.val
  if name.length > 99 then
    none
  else
    let h := fillHeader name type size
    some (putString h chksumField (formatOctal 7 (calculateChksum h)))

/-! ## ustar_parse_header -/

/-- `ULONG_MAX`. -/
def ulongMax : Nat := 2 ^ 32 - 1

/-- `INT_MAX`. -/
def intMax : Nat := 2 ^ 31 - 1

/-- The loop of `parse_octal_field`. -/
def parseOctalLoop : List UInt8 → Nat → Nat → Option Nat
  | [], _, _ => none
  | c :: cs, ofs, value =>
    if 48 ≤ c ∧ c ≤ 55 then
      if value > ulongMax / 8 then
        none
      else
        parseOctalLoop cs (ofs + 1) (c.toNat - 48 + value * 8)
    else if c = 32 ∨ c = 0 then
      if ofs > 0 then some value else none
    else
      none

/-- `parse_octal_field`. -/
def parseOctalField (h : Header) (f : Field) : Option Nat :=
  parseOctalLoop (read h f.ofs f.size) 0 0

/-- The errors of `ustar_parse_header`. -/
inductive ParseError
  | notUstar
  | version
  | chksum
  | mismatch
  | nameTooLong
  | type
  | size
  | tooLarge
deriving DecidableEq

/-- The texts it returns. -/
def ParseError.message : ParseError → String
  | .notUstar => "not a ustar archive"
  | .version => "invalid ustar version"
  | .chksum => "corrupt chksum field"
  | .mismatch => "checksum mismatch"
  | .nameTooLong => "file name too long"
  | .type => "unimplemented file type"
  | .size => "corrupt file size field"
  | .tooLarge => "file too large"

/-- What a header says. -/
structure Entry where
  fileName : List UInt8
  type : FileType
  size : Nat
deriving DecidableEq

/-- `is_all_zeros`, on a header. -/
def isAllZeros (h : Header) : Bool := (range headerSize).all fun i => h i = 0

/-- The end of `ustar_parse_header`, when the type is known. -/
def parseSize (h : Header) (type : FileType) : Except ParseError Nat :=
  match type with
  | .regular =>
    match parseOctalField h sizeField with
    | none => .error .size
    | some size => if size > intMax then .error .tooLarge else .ok size
  | .directory => .ok 0

/-- `ustar_parse_header`; there is no entry at the end of the archive. -/
def ustarParseHeader (h : Header) : Except ParseError (Option Entry) :=
  if isAllZeros h then
    .ok none
  else if read h magicField.ofs magicField.size ≠ [117, 115, 116, 97, 114, 0] then
    .error .notUstar
  else if read h versionField.ofs versionField.size ≠ [48, 48] then
    .error .version
  else
    match parseOctalField h chksumField with
    | none => .error .chksum
    | some chksum =>
      if chksum ≠ calculateChksum h then
        .error .mismatch
      else if h (nameField.ofs + nameField.size - 1) ≠ 0 ∨ h prefixField.ofs ≠ 0 then
        .error .nameTooLong
      else do
        let type ←
          if h typeflagField.ofs = FileType.regular.byte then
            .ok FileType.regular
          else if h typeflagField.ofs = FileType.directory.byte then
            .ok FileType.directory
          else
            .error .type
        let size ← parseSize h type
        let name := stripAntisocialPrefixes (cstring (read h nameField.ofs nameField.size))
        return some ⟨name, type, size⟩

/-! ## names -/

variable {name : List UInt8} {h h' : Header} {f g : Field} {text : List UInt8} {type : FileType}
  {size : Int} {a n value width fuel : Nat} {d : Nat} {rest : List UInt8}

theorem dropWhile_lt_of_antisocial (hname : antisocial name = true) :
    ((name.dropWhile (· ≠ 47)).drop 1).length < name.length := by
  have hle := (dropWhile_sublist (l := name) (fun c => decide (c ≠ 47))).length_le
  have hpos : 0 < name.length := by
    cases name with
    | nil => cases hname
    | cons c cs => exact Nat.succ_pos _
  rw [length_drop]
  omega

/-- The loop ends at a name without such a beginning. -/
theorem antisocial_stripLoop (hfuel : name.length ≤ fuel) :
    antisocial (stripLoop fuel name) = false := by
  induction fuel generalizing name with
  | zero =>
    obtain rfl : name = [] := length_eq_zero_iff.mp (by omega)
    rfl
  | succ fuel ih =>
    rw [stripLoop]
    split
    · next hname =>
      have hlt := dropWhile_lt_of_antisocial hname
      exact ih (by omega)
    · next hname => exact Bool.eq_false_iff.mpr hname

theorem stripLoop_of_not_antisocial (hname : antisocial name = false) :
    stripLoop fuel name = name := by
  cases fuel with
  | zero => rfl
  | succ fuel => rw [stripLoop, hname, if_neg Bool.false_ne_true]

/-- **Stripping a stripped name does nothing.** -/
theorem strip_strip (name : List UInt8) :
    stripAntisocialPrefixes (stripAntisocialPrefixes name) = stripAntisocialPrefixes name := by
  have hloop := antisocial_stripLoop (le_refl name.length)
  rw [stripAntisocialPrefixes.eq_def name]
  dsimp only
  split
  · decide
  · next hne => rw [stripAntisocialPrefixes, stripLoop_of_not_antisocial hloop, if_neg hne]

theorem mem_stripLoop {c : UInt8} (hc : c ∈ stripLoop fuel name) : c ∈ name := by
  induction fuel generalizing name with
  | zero => exact hc
  | succ fuel ih =>
    rw [stripLoop] at hc
    split at hc
    · exact (dropWhile_sublist _).mem (mem_of_mem_drop (ih hc))
    · exact hc

theorem zero_not_mem_strip (hname : (0 : UInt8) ∉ name) :
    (0 : UInt8) ∉ stripAntisocialPrefixes name := by
  rw [stripAntisocialPrefixes]
  split
  · decide
  · exact fun hc => hname (mem_stripLoop hc)

/-! ## octal numbers -/

/-- The value of digits, the most significant one first. -/
def octalValue (value : Nat) (ds : List Nat) : Nat := ds.foldl (fun v d => d + v * 8) value

theorem le_octalValue (value : Nat) (ds : List Nat) : value ≤ octalValue value ds := by
  induction ds generalizing value with
  | nil => exact le_rfl
  | cons d ds ih => exact le_trans (by omega) (ih (d + value * 8))

theorem octalValue_append (value : Nat) (ds es : List Nat) :
    octalValue value (ds ++ es) = octalValue (octalValue value ds) es := foldl_append

theorem digitChar_toNat (hd : d < 8) : (digitChar d).toNat = 48 + d := by
  rw [digitChar, UInt8.toNat_ofNat']
  omega

theorem parseOctalLoop_digits {ds : List Nat} {ofs : Nat}
    (hds : ∀ d ∈ ds, d < 8) (hvalue : octalValue value ds ≤ ulongMax) (hofs : 0 < ofs + ds.length) :
    parseOctalLoop (ds.map digitChar ++ 0 :: rest) ofs value = some (octalValue value ds) := by
  induction ds generalizing ofs value with
  | nil =>
    have hpos : 0 < ofs := hofs
    simp [parseOctalLoop, octalValue, hpos]
  | cons d ds ih =>
    have hd : d < 8 := hds d mem_cons_self
    have hchar := digitChar_toNat hd
    have hrange : 48 ≤ digitChar d ∧ digitChar d ≤ 55 := by
      rw [UInt8.le_iff_toNat_le, UInt8.le_iff_toNat_le, hchar]
      exact ⟨Nat.le_add_right 48 d, by change 48 + d ≤ 55; omega⟩
    have hle : ¬ value > ulongMax / 8 := by
      have hstep := le_octalValue (d + value * 8) ds
      have hfold : octalValue (d + value * 8) ds ≤ ulongMax := hvalue
      unfold ulongMax at hfold ⊢
      omega
    have hdigit : (digitChar d).toNat - 48 + value * 8 = d + value * 8 := by omega
    rw [map_cons, cons_append, parseOctalLoop, if_pos hrange, if_neg hle, hdigit]
    exact ih (fun e he => hds e (mem_cons_of_mem _ he)) hvalue (by omega)

/-- The digits that are printed. -/
def octalDigits (width value : Nat) : List Nat :=
  replicate (width - (Nat.digits 8 value).length) 0 ++ (Nat.digits 8 value).reverse

theorem formatOctal_eq (hwidth : 0 < width) :
    formatOctal width value = (octalDigits width value).map digitChar := by
  have hmap : (octalDigits width value).map digitChar =
      replicate (width - (Nat.digits 8 value).length) (digitChar 0) ++
        ((Nat.digits 8 value).map digitChar).reverse := by
    rw [octalDigits, map_append, map_replicate, map_reverse]
  rw [hmap, formatOctal]
  by_cases hzero : Nat.digits 8 value = []
  · -- zero is printed as one digit
    obtain ⟨width, rfl⟩ := Nat.exists_eq_succ_of_ne_zero hwidth.ne'
    rw [hzero]
    simp [replicate_succ']
  · have hlen : 1 - (Nat.digits 8 value).length = 0 := by
      have := length_pos_iff.mpr hzero
      omega
    simp [hlen]

theorem octalValue_octalDigits (width value : Nat) :
    octalValue 0 (octalDigits width value) = value := by
  have hzeros : ∀ n, octalValue 0 (replicate n 0) = 0 := by
    intro n
    induction n with
    | zero => rfl
    | succ n ih => exact ih
  have hdigits : octalValue 0 (Nat.digits 8 value).reverse = value := by
    rw [octalValue, foldl_reverse]
    have hvalue := Nat.ofDigits_digits 8 value
    rw [Nat.ofDigits_eq_foldr] at hvalue
    simpa [mul_comm] using hvalue
  rw [octalDigits, octalValue_append, hzeros, hdigits]

theorem length_octalDigits (h : value < 8 ^ width) : (octalDigits width value).length = width := by
  have hlen := (Nat.digits_length_le_iff (by decide) value).mpr h
  rw [octalDigits, length_append, length_replicate, length_reverse]
  omega

theorem octalDigits_lt (hd : d ∈ octalDigits width value) : d < 8 := by
  rw [octalDigits, mem_append, mem_reverse] at hd
  rcases hd with hd | hd
  · rw [eq_of_mem_replicate hd]
    decide
  · exact Nat.digits_lt_base (by decide) hd

/-- **A number that has been printed is read back.** -/
theorem parseOctalLoop_format (hwidth : 0 < width) (hlt : value < 8 ^ width)
    (hmax : value ≤ ulongMax) :
    parseOctalLoop (formatOctal width value ++ 0 :: rest) 0 0 = some value := by
  rw [formatOctal_eq hwidth, parseOctalLoop_digits (fun d => octalDigits_lt), octalValue_octalDigits]
  · rwa [octalValue_octalDigits]
  · rw [length_octalDigits hlt]
    omega

/-! ## fields -/

theorem putString_of_disjoint (hg : 0 < g.size) (ha : a < g.ofs ∨ g.ofs + g.size ≤ a) :
    putString h g text a = h a := by
  have hlen : (text.take (g.size - 1) ++ [0]).length ≤ g.size := by
    rw [length_append, length_take, length_singleton]
    omega
  rcases ha with ha | ha
  · exact write_of_lt ha
  · exact write_of_le (by omega)

theorem read_putString_of_disjoint (hg : 0 < g.size) (ha : a + n ≤ g.ofs ∨ g.ofs + g.size ≤ a) :
    read (putString h g text) a n = read h a n :=
  read_congr fun i hi => putString_of_disjoint hg (by omega)

theorem read_putString_self (hn : text.length + 1 = n) (htext : text.length < f.size) :
    read (putString h f text) f.ofs n = text ++ [0] := by
  have htake : text.take (f.size - 1) = text := take_of_length_le (by omega)
  have hlen : n = (text ++ [(0 : UInt8)]).length := by simp [hn]
  rw [putString, htake, hlen, read_write_self]

theorem putString_zeros (htext : text.length ≤ a) : putString (fun _ => 0) ⟨0, n⟩ text a = 0 := by
  have hle : (text.take (n - 1)).length ≤ a - 0 := by
    rw [length_take]
    omega
  change (if 0 ≤ a then (text.take (n - 1) ++ [0]).getD (a - 0) 0 else 0) = 0
  rw [if_pos (Nat.zero_le _), getD_append_right _ _ _ _ hle]
  cases a - 0 - (text.take (n - 1)).length with
  | zero => rfl
  | succ k => rfl

theorem read_field (htext : text.length < f.size)
    (hread : read h f.ofs (text.length + 1) = text ++ [0]) :
    ∃ rest, read h f.ofs f.size = text ++ 0 :: rest := by
  refine ⟨read h (f.ofs + (text.length + 1)) (f.size - (text.length + 1)), ?_⟩
  have hsplit : f.size = text.length + 1 + (f.size - (text.length + 1)) := by omega
  rw [hsplit, read_append, hread, ← hsplit]
  simp

theorem calculateChksum_congr (heq : ∀ i < headerSize,
    i < chksumField.ofs ∨ chksumField.ofs + chksumField.size ≤ i → h i = h' i) :
    calculateChksum h = calculateChksum h' := by
  refine congrArg sum (map_congr_left fun i hi => ?_)
  split
  · rfl
  · next hout => rw [heq i (mem_range.mp hi) (by omega)]

theorem ustarParseHeader_congr (heq : ∀ i < headerSize, h i = h' i) :
    ustarParseHeader h = ustarParseHeader h' := by
  have hread : ∀ f : Field, f.ofs + f.size ≤ headerSize → read h f.ofs f.size = read h' f.ofs f.size :=
    fun f hf => read_congr fun i hi => heq _ (by omega)
  have hzeros : isAllZeros h = isAllZeros h' := by
    rw [isAllZeros, isAllZeros, Bool.eq_iff_iff, all_eq_true, all_eq_true]
    refine forall₂_congr fun i hi => ?_
    rw [heq i (mem_range.mp hi)]
  have hsize : parseSize h = parseSize h' := by
    funext type
    cases type with
    | regular => rw [parseSize, parseSize, parseOctalField, parseOctalField, hread sizeField (by decide)]
    | directory => rfl
  rw [ustarParseHeader, ustarParseHeader, hzeros, hread magicField (by decide),
    hread versionField (by decide), parseOctalField, parseOctalField, hread chksumField (by decide),
    calculateChksum_congr fun i hi _ => heq i hi, heq _ (by decide), heq prefixField.ofs (by decide),
    heq typeflagField.ofs (by decide), hsize, hread nameField (by decide)]

theorem calculateChksum_lt (h : Header) : calculateChksum h < 8 ^ 7 := by
  have hle : calculateChksum h ≤ headerSize * 255 := by
    refine (sum_le_card_nsmul _ 255 fun x hx => ?_).trans (le_of_eq (by simp))
    obtain ⟨i, -, rfl⟩ := mem_map.mp hx
    split
    · decide
    · exact Nat.le_of_lt_succ (UInt8.toNat_lt (h i))
  exact lt_of_le_of_lt hle (by decide)

/-! ## the round trip -/

/-- The bytes of the fields that `ustar_parse_header` looks at. -/
structure Fields (h : Header) (name : List UInt8) (type : FileType) (size : Nat) : Prop where
  name : read h nameField.ofs (name.length + 1) = name ++ [0]
  nameEnd : h (nameField.ofs + nameField.size - 1) = 0
  size : read h sizeField.ofs 12 = formatOctal 11 size ++ [0]
  typeflag : h typeflagField.ofs = type.byte
  magic : read h magicField.ofs 6 = [117, 115, 116, 97, 114, 0]
  version : read h versionField.ofs 2 = [48, 48]
  prefixStart : h prefixField.ofs = 0

theorem length_formatOctal (hwidth : 0 < width) (hlt : value < 8 ^ width) :
    (formatOctal width value).length = width := by
  rw [formatOctal_eq hwidth, length_map, length_octalDigits hlt]

theorem fields_fillHeader (type : FileType) (size : Int) (hname : name.length ≤ 99) :
    Fields (fillHeader name type size) name type (size % 2 ^ 32).toNat := by
  have hsize : (size % 2 ^ 32).toNat < 8 ^ 11 := by omega
  have hlen := length_formatOctal (by decide : 0 < 11) hsize
  unfold fillHeader
  dsimp only
  constructor
  · rw [← read_putString_self (h := fun _ => 0) (f := nameField) rfl (Nat.lt_succ_of_le hname)]
    refine read_congr fun i hi => ?_
    simp (disch := (simp; try omega)) only [putString_of_disjoint, write_of_lt]
  · simp (disch := simp) only [putString_of_disjoint, write_of_lt]
    exact putString_zeros hname
  · simp (disch := simp) only [read_putString_of_disjoint, read_write_of_disjoint]
    exact read_putString_self (by rw [hlen]) (hlen.trans_lt (by decide))
  · simp (disch := simp) only [putString_of_disjoint, write_of_lt]
    change write _ 156 [type.byte] (156 + 0) = [type.byte][0]
    exact write_add Nat.zero_lt_one
  · simp (disch := simp) only [read_putString_of_disjoint, read_write_of_disjoint]
    exact read_putString_self rfl (by decide)
  · simp (disch := simp) only [read_putString_of_disjoint]
    exact read_write_self
  · simp (disch := simp) only [putString_of_disjoint, write_of_le]

/-- Writing the checksum leaves the other fields alone. -/
theorem Fields.putChksum {size : Nat} (hf : Fields h name type size) (hname : name.length ≤ 99) :
    Fields (putString h chksumField text) name type size := by
  constructor
  · rw [read_putString_of_disjoint (by decide) (.inl (by simp; omega))]
    exact hf.name
  · rw [putString_of_disjoint (by decide) (by decide)]
    exact hf.nameEnd
  · rw [read_putString_of_disjoint (by decide) (by decide)]
    exact hf.size
  · rw [putString_of_disjoint (by decide) (by decide)]
    exact hf.typeflag
  · rw [read_putString_of_disjoint (by decide) (by decide)]
    exact hf.magic
  · rw [read_putString_of_disjoint (by decide) (by decide)]
    exact hf.version
  · rw [putString_of_disjoint (by decide) (by decide)]
    exact hf.prefixStart

theorem parse_of_fields {size : Nat} (hf : Fields h name type size) (hname : name.length ≤ 99)
    (hzero : (0 : UInt8) ∉ name) (hsize : size ≤ intMax)
    (hchksum : parseOctalField h chksumField = some (calculateChksum h)) :
    ustarParseHeader h = .ok (some ⟨stripAntisocialPrefixes name, type, type.sizeOf size⟩) := by
  have hlive : isAllZeros h = false := by
    rw [isAllZeros, all_eq_false]
    refine ⟨magicField.ofs, mem_range.mpr (by decide), ?_⟩
    have hmagic := congrArg (fun l => l.getD 0 0) hf.magic
    simp only [getD_read (by decide : 0 < 6), add_zero] at hmagic
    rw [hmagic]
    decide
  have hstring : cstring (read h nameField.ofs nameField.size) = name := by
    obtain ⟨rest, hrest⟩ := read_field (Nat.lt_succ_of_le hname) hf.name
    have hall : ∀ c ∈ name, decide (c ≠ 0) = true :=
      fun c hc => decide_eq_true fun heq => hzero (heq ▸ hc)
    rw [hrest, cstring, takeWhile_append_of_pos hall, takeWhile_cons_of_neg (by decide),
      append_nil]
  have hparse : parseSize h type = .ok (type.sizeOf size) := by
    cases type with
    | directory => rfl
    | regular =>
      have hoctal : parseOctalField h sizeField = some size := by
        rw [parseOctalField, hf.size]
        have hlt : size < 8 ^ 11 := lt_of_le_of_lt hsize (by decide)
        exact parseOctalLoop_format (by decide) hlt (hsize.trans (by decide))
      rw [parseSize, hoctal]
      exact if_neg (not_lt.mpr hsize)
  have hmagic : ¬ read h magicField.ofs magicField.size ≠ [117, 115, 116, 97, 114, 0] :=
    not_not_intro hf.magic
  have hversion : ¬ read h versionField.ofs versionField.size ≠ [48, 48] := not_not_intro hf.version
  have hends : ¬ (h (nameField.ofs + nameField.size - 1) ≠ 0 ∨ h prefixField.ofs ≠ 0) :=
    not_or.mpr ⟨not_not_intro hf.nameEnd, not_not_intro hf.prefixStart⟩
  rw [ustarParseHeader, hlive, if_neg Bool.false_ne_true, if_neg hmagic, if_neg hversion, hchksum]
  dsimp only
  rw [if_neg (not_not_intro rfl), if_neg hends, hf.typeflag, hstring]
  cases type with
  | regular => rw [if_pos rfl, ok_bind, hparse, ok_bind, pure_eq_ok]
  | directory =>
    rw [if_neg (by decide), if_pos rfl, ok_bind, hparse, ok_bind, pure_eq_ok]

theorem parse_made {fileName : CString} (hsize : 0 ≤ size) (hmax : size ≤ intMax)
    (hmake : ustarMakeHeader fileName type size = some h) :
    ustarParseHeader h =
      .ok (some ⟨stripAntisocialPrefixes fileName.val, type, type.sizeOf size.toNat⟩) := by
  unfold ustarMakeHeader at hmake
  dsimp only at hmake
  split at hmake
  · cases hmake
  · next hshort =>
    cases hmake
    have hname := not_lt.mp hshort
    have hvalue : (size % 2 ^ 32).toNat = size.toNat := by
      unfold intMax at hmax
      omega
    have hfill := fields_fillHeader type size hname
    rw [hvalue] at hfill
    obtain ⟨sum, hsum⟩ : ∃ sum, sum = calculateChksum
        (fillHeader (stripAntisocialPrefixes fileName.val) type size) := ⟨_, rfl⟩
    have hlt : sum < 8 ^ 7 := hsum ▸ calculateChksum_lt _
    have hlen := length_formatOctal (by decide : 0 < 7) hlt
    rw [← hsum]
    -- the sum does not look at the field that it is written to
    have hsame : calculateChksum (putString (fillHeader (stripAntisocialPrefixes fileName.val) type
        size) chksumField (formatOctal 7 sum)) = sum := by
      rw [hsum]
      exact calculateChksum_congr fun i _ hout => putString_of_disjoint (by decide) hout
    have hchksum : parseOctalField (putString (fillHeader (stripAntisocialPrefixes fileName.val)
        type size) chksumField (formatOctal 7 sum)) chksumField = some sum := by
      rw [parseOctalField, read_putString_self (by rw [hlen]) (hlen.trans_lt (by decide))]
      exact parseOctalLoop_format (by decide) hlt (hlt.le.trans (by decide))
    rw [parse_of_fields (hfill.putChksum hname) hname (zero_not_mem_strip fileName.property)
      (Int.toNat_le.mpr hmax) (by rw [hsame, hchksum]), strip_strip]

/-- **The round trip.**  A header cannot be composed exactly when the stripped name is too long;
a header that has been composed is parsed as the stripped name, the type and the size. -/
theorem ustar_round_trip (fileName : CString) (type : FileType) (size : Int) (hsize : 0 ≤ size)
    (hmax : size ≤ intMax) :
    (ustarMakeHeader fileName type size = none ↔
      99 < (stripAntisocialPrefixes fileName.val).length) ∧
    ∀ h, ustarMakeHeader fileName type size = some h →
      ustarParseHeader h =
        .ok (some ⟨stripAntisocialPrefixes fileName.val, type, type.sizeOf size.toNat⟩) := by
  refine ⟨?_, fun h hmake => parse_made hsize hmax hmake⟩
  unfold ustarMakeHeader
  dsimp only
  split
  · next hlong => exact ⟨fun _ => hlong, fun _ => rfl⟩
  · next hshort => exact ⟨nofun, fun hlong => absurd hlong hshort⟩

/-- The name `../a`, with the largest size. -/
theorem ustar_round_trip_dots :
    ∃ h, ustarMakeHeader ⟨[46, 46, 47, 97], by decide⟩ .regular intMax = some h ∧
      ustarParseHeader h = .ok (some ⟨[97], .regular, intMax⟩) := by
  obtain ⟨hnone, hsome⟩ := ustar_round_trip ⟨[46, 46, 47, 97], by decide⟩ .regular intMax
    (by decide) (by decide)
  cases hmake : ustarMakeHeader ⟨[46, 46, 47, 97], by decide⟩ .regular intMax with
  | none => exact absurd (hnone.mp hmake) (by decide)
  | some h => exact ⟨h, rfl, hsome h hmake⟩

/-! ## what is accepted -/

/-- **What `ustar_parse_header` has checked** when it does not return an error. -/
theorem parse_eq_ok {r : Option Entry} (hparse : ustarParseHeader h = .ok r) :
    isAllZeros h = true ∨
      read h magicField.ofs magicField.size = [117, 115, 116, 97, 114, 0] ∧
      parseOctalField h chksumField = some (calculateChksum h) ∧
      ∃ type size, parseSize h type = .ok size ∧ r =
        some ⟨stripAntisocialPrefixes (cstring (read h nameField.ofs nameField.size)), type, size⟩ := by
  unfold ustarParseHeader at hparse
  split at hparse
  · next hzero => exact .inl hzero
  split at hparse
  · cases hparse
  next hmagic =>
  split at hparse
  · cases hparse
  split at hparse
  · cases hparse
  next chksum hchksum =>
  split at hparse
  · cases hparse
  next hsum =>
  split at hparse
  · cases hparse
  refine .inr ⟨not_not.mp hmagic, hchksum.trans (congrArg some (not_not.mp hsum)), ?_⟩
  have hsize : ∀ type, (parseSize h type >>= fun size => pure (some ⟨stripAntisocialPrefixes
      (cstring (read h nameField.ofs nameField.size)), type, size⟩)) = .ok r → ∃ type size,
      parseSize h type = .ok size ∧ r = some ⟨stripAntisocialPrefixes
        (cstring (read h nameField.ofs nameField.size)), type, size⟩ := by
    intro type hrun
    obtain ⟨size, hsize, hrun⟩ := bind_eq_ok hrun
    cases hrun
    exact ⟨type, size, hsize, rfl⟩
  dsimp only at hparse
  split at hparse
  · exact hsize .regular hparse
  · split at hparse
    · exact hsize .directory hparse
    · cases hparse

theorem parseSize_le {size : Nat} (hparse : parseSize h type = .ok size) : size ≤ intMax := by
  cases type with
  | directory =>
    cases hparse
    exact Nat.zero_le _
  | regular =>
    unfold parseSize at hparse
    dsimp only at hparse
    split at hparse
    next => cases hparse
    next =>
      split at hparse
      next => cases hparse
      next hle =>
        cases hparse
        exact not_lt.mp hle

/-- Names that cannot leave the directory to which they are extracted. -/
def Harmless (name : List UInt8) : Prop :=
  name ≠ [] ∧ name ≠ [46, 46] ∧ ¬ [47] <+: name ∧ ¬ [46, 47] <+: name ∧ ¬ [46, 46, 47] <+: name

theorem harmless_strip (name : List UInt8) : Harmless (stripAntisocialPrefixes name) := by
  have hloop := antisocial_stripLoop (le_refl name.length)
  rw [stripAntisocialPrefixes]
  split
  · unfold Harmless
    decide
  · next hne =>
    rw [not_or] at hne
    rw [antisocial, Bool.or_eq_false_iff, Bool.or_eq_false_iff] at hloop
    simp only [Bool.eq_false_iff, ne_eq, isPrefixOf_iff_prefix] at hloop
    exact ⟨hne.1, hne.2, hloop.1.1, hloop.1.2, hloop.2⟩

/-- Two headers differ in byte `i` and in no other. -/
def OneByte (h h' : Header) (i : Nat) : Prop :=
  i < headerSize ∧ h' i ≠ h i ∧ ∀ j < headerSize, j ≠ i → h' j = h j

/-- **The checksum sees the change of one byte.** -/
theorem calculateChksum_ne (hone : OneByte h h' a)
    (hout : ¬ (chksumField.ofs ≤ a ∧ a < chksumField.ofs + chksumField.size)) :
    calculateChksum h' ≠ calculateChksum h := by
  obtain ⟨ha, hne, hsame⟩ := hone
  obtain ⟨before, after, hsplit⟩ := append_of_mem (mem_range.mpr ha)
  have hnodup : (before ++ a :: after).Nodup := hsplit ▸ nodup_range
  have hnot := (nodup_cons.mp (perm_middle.nodup_iff.mp hnodup)).1
  rw [mem_append, not_or] at hnot
  -- the other bytes contribute the same to both sums
  let term (h : Header) (i : Nat) :=
    if chksumField.ofs ≤ i ∧ i < chksumField.ofs + chksumField.size then 32 else (h i).toNat
  have hother : ∀ l ⊆ range headerSize, a ∉ l → l.map (term h') = l.map (term h) := by
    intro l hl hal
    refine map_congr_left fun i hi => ?_
    simp only [term, hsame i (mem_range.mp (hl hi)) fun heq => hal (heq ▸ hi)]
  have hbefore : before ⊆ range headerSize := hsplit ▸ subset_append_left ..
  have hafter : after ⊆ range headerSize :=
    fun i hi => hsplit ▸ mem_append_right _ (mem_cons_of_mem a hi)
  intro hsum
  change ((range headerSize).map (term h')).sum = ((range headerSize).map (term h)).sum
    at hsum
  rw [hsplit, map_append, map_append, map_cons, map_cons, sum_append, sum_append, sum_cons, sum_cons,
    hother before hbefore hnot.1, hother after hafter hnot.2] at hsum
  simp only [term, if_neg hout] at hsum
  exact hne (UInt8.toNat_inj.mp (by omega))

/-- **One changed byte is detected**: of two headers that differ in one byte outside of the
checksum, not both are accepted; and the name and the size of a header that is accepted are
harmless. -/
theorem ustar_detects {e : Entry} (hparse : ustarParseHeader h = .ok (some e)) :
    (∀ h' i, OneByte h h' i →
      ¬ (chksumField.ofs ≤ i ∧ i < chksumField.ofs + chksumField.size) →
      ∃ error, ustarParseHeader h' = .error error) ∧
    Harmless e.fileName ∧ e.size ≤ intMax := by
  rcases parse_eq_ok hparse with hzero | ⟨hmagic, hchksum, type, size, hsize, hentry⟩
  · rw [ustarParseHeader, if_pos hzero] at hparse
    cases hparse
  · cases hentry
    refine ⟨fun h' i hone hout => ?_, harmless_strip _, parseSize_le hsize⟩
    cases hparse' : ustarParseHeader h' with
    | error error => exact ⟨error, rfl⟩
    | ok r =>
      rcases parse_eq_ok hparse' with hzero | ⟨-, hchksum', -⟩
      · -- two bytes of the magic have changed
        rw [isAllZeros, all_eq_true] at hzero
        have hchanged : ∀ k < 2, 257 + k = i := by
          intro k hk
          by_contra hne
          have hlt : 257 + k < headerSize := by
            unfold headerSize
            omega
          have hbyte := hone.2.2 _ hlt hne
          rw [of_decide_eq_true (hzero _ (mem_range.mpr hlt))] at hbyte
          have hget := congrArg (fun l => l.getD k 0) hmagic
          simp only [getD_read (show k < 6 by omega), ← hbyte] at hget
          interval_cases k <;> cases hget
        have hfirst := hchanged 0 (by decide)
        have hsecond := hchanged 1 (by decide)
        omega
      · have hfield : read h' 148 8 = read h 148 8 := by
          refine read_congr fun j hj => hone.2.2 _ ?_ fun heq => hout ⟨?_, ?_⟩
          · unfold headerSize
            omega
          · exact heq ▸ Nat.le_add_right _ _
          · exact heq ▸ Nat.add_lt_add_left hj _
        rw [parseOctalField, hfield] at hchksum'
        exact absurd (Option.some.inj (hchksum.symm.trans hchksum')).symm
          (calculateChksum_ne hone hout)

/-- The header of the file `a`, with another first letter. -/
theorem ustar_detects_letter :
    ∃ h, ustarParseHeader h = .ok (some ⟨[97], .regular, 0⟩) ∧
      ∃ error, ustarParseHeader (Function.update h 0 (h 0 + 1)) = .error error := by
  have hmake : ustarMakeHeader ⟨[97], by decide⟩ .regular 0 = some _ := rfl
  have hparse := parse_made (by decide) (by decide) hmake
  refine ⟨_, hparse, (ustar_detects hparse).1 _ 0 ⟨by decide, ?_, fun j _ hj => ?_⟩ (by decide)⟩
  · rw [Function.update_self]
    exact fun heq => absurd (UInt8.add_eq_left.mp heq) (by decide)
  · exact Function.update_of_ne hj ..

end Pintos.Ustar
