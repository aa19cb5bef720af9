import Pintos.Filesys.Effects
import Pintos.Lib.Simulation

/-!
# Pintos.Filesys.NameMap

What the file system is for: a map from names to files that are sequences of bytes of a
fixed length (`NameMap`).  A file has a number of its own that no other file ever gets;
a name is bound to a number, and an open file is a number and a position.  Removing a
name does nothing to the file.

The results of every sequence of operations on a formatted device are results that the
map can give (`refines_nameMap`): sectors are used again and files are not.
-/

namespace Pintos.Fs

open Bytes
open Function List Option

/-! ## the abstract model -/

/-- Names, the contents of the files that have been created, and the open files. -/
structure NameMap where
  names : CString → Option Nat
  contents : Nat → List UInt8
  handles : Nat → Option (Nat × Nat)
  created : Nat

namespace NameMap

/-- No name is bound and no file is open. -/
def empty : NameMap := ⟨fun _ => none, fun _ => [], fun _ => none, 0⟩

/-- An operation with its result. -/
inductive Step : NameMap → Op × Result → NameMap → Prop
  | create {m : NameMap} {name : CString} {initialSize : OffT} :
      0 ≤ initialSize.val → m.names name = none →
      Step m (.create name initialSize, .success true)
        { m with
          names := update m.names name (some m.created)
          contents := update m.contents m.created
            (List.replicate initialSize.val.toNat 0)
          created := m.created + 1 }
  | createFailed {m : NameMap} {name : CString} {initialSize : OffT} :
      Step m (.create name initialSize, .success false) m
  | openSome {m : NameMap} {name : CString} {file f : Nat} :
      m.names name = some f → m.handles file = none →
      Step m (.open name, .file (some file))
        { m with handles := update m.handles file (some (f, 0)) }
  | openNone {m : NameMap} {name : CString} :
      m.names name = none → Step m (.open name, .file none) m
  | remove {m : NameMap} {name : CString} :
      Step m (.remove name, .success (m.names name).isSome)
        { m with names := update m.names name none }
  | read {m : NameMap} {file f pos : Nat} {size : OffT} {bs : List UInt8} :
      m.handles file = some (f, pos) →
      bs = ((m.contents f).drop pos).take size.val.toNat →
      Step m (.read file size, .bytes bs)
        { m with handles := update m.handles file (some (f, pos + bs.length)) }
  | write {m : NameMap} {file f pos n : Nat} {buffer : List UInt8} :
      m.handles file = some (f, pos) →
      n = min buffer.length ((m.contents f).length - pos) →
      Step m (.write file buffer, .written n)
        { m with
          contents := update m.contents f (patch (m.contents f) pos (buffer.take n))
          handles := update m.handles file (some (f, pos + n)) }
  | seek {m : NameMap} {file f pos : Nat} {newPos : OffT} :
      m.handles file = some (f, pos) → 0 ≤ newPos.val →
      Step m (.seek file newPos, .none)
        { m with handles := update m.handles file (some (f, newPos.val.toNat)) }
  | close {m : NameMap} {file f pos : Nat} :
      m.handles file = some (f, pos) →
      Step m (.close file, .none) { m with handles := update m.handles file none }

/-- The map as a transition system. -/
def lts : Lts NameMap (Op × Result) := ⟨(· = empty), Step⟩

end NameMap

/-- The file system with the results of its operations. -/
def observed (memory : Memory) : Lts State (Op × Result) where
  init := Formatted memory
  step := fun s l s' => s.Legal l.1 ∧ s.exec memory l.1 = .ok (s', l.2)

/-- The results of operations from `s` on, and the state after them. -/
def results (memory : Memory) : State → List Op → Option (List Result × State)
  | s, [] => some ([], s)
  | s, op :: ops =>
    if s.Legal op then
      match s.exec memory op with
      | .ok (s', r) => (results memory s' ops).map fun p => (r :: p.1, p.2)
      | .error _ => none
    else
      none

/-! ## the simulation -/

variable {L : Layout} {s s' : State} {m : NameMap} {ident : Nat → Nat} {stack : DirEntry} {op : Op}
  {r : Result} {g : CString → Option Nat} {new written moved : Nat → Prop}

/-- The file in sector `k` has the number `ident k`. -/
structure Represents (L : Layout) (ident : Nat → Nat) (s : State) (m : NameMap) : Prop where
  inv : s.Inv L
  inj : ∀ k l, s.IsFile L k → s.IsFile L l → ident k = ident l → k = l
  lt : ∀ k, s.IsFile L k → ident k < m.created
  names : ∀ name, m.names name = (names s.fs.dev L.root name).map ident
  contents : ∀ k, s.IsFile L k → m.contents (ident k) = fileBytes s.fs.dev k
  opened : ∀ file ∈ s.handles,
    m.handles file = some (ident (s.sectorOf file), (s.fs.files file).pos)
  closed : ∀ file, file ∉ s.handles → m.handles file = none

namespace Represents

section

variable (h : Represents L ident s m) {file f : Nat} {name : CString}
include h

/-- The relation after an operation that creates no file. -/
theorem next {m' : NameMap}
    (hk : Kept L s s' g nothing written moved) (hcreated : m'.created = m.created)
    (hnames : ∀ name, m'.names name = (g name).map ident)
    (hcontents : ∀ k, s.IsFile L k → m'.contents (ident k) = fileBytes s'.fs.dev k)
    (hopened : ∀ file ∈ s'.handles,
      m'.handles file = some (ident (s'.sectorOf file), (s'.fs.files file).pos))
    (hclosed : ∀ file, file ∉ s'.handles → m'.handles file = none) :
    Represents L ident s' m' := by
  have hfile : ∀ k, s'.IsFile L k → s.IsFile L k := fun k hk' => (hk.isFile k hk').elim id nofun
  refine ⟨hk.inv, ?_, ?_, ?_, ?_, hopened, hclosed⟩
  · exact fun k l hk' hl' heq => h.inj k l (hfile k hk') (hfile l hl') heq
  · intro k hk'
    rw [hcreated]
    exact h.lt k (hfile k hk')
  · intro name
    rw [hk.names]
    exact hnames name
  · exact fun k hk' => hcontents k (hfile k hk')

theorem opened_of_kept (hk : Kept L s s' g new written moved) (hmem : file ∈ s.handles)
    (hmem' : file ∈ s'.handles) (hstay : ¬ moved file) :
    m.handles file = some (ident (s'.sectorOf file), (s'.fs.files file).pos) := by
  rw [hk.sector file hmem hmem', hk.pos file hmem hmem' hstay]
  exact h.opened file hmem

/-- An operation that no one can see. -/
theorem unchanged (hhandles : s'.handles = s.handles)
    (hk : Kept L s s' (Fs.names s.fs.dev L.root) nothing nothing nothing) :
    Represents L ident s' m := by
  refine h.next hk rfl h.names ?_ ?_ ?_
  · intro k hk'
    rw [h.contents k hk', hk.bytes k hk' id]
  · intro file hfile
    exact h.opened_of_kept hk (hhandles ▸ hfile) hfile id
  · intro file hfile
    exact h.closed file (hhandles ▸ hfile)

/-- An operation on one open file, which gets the position `pos`. -/
theorem moves {pos : Nat} {contents : Nat → List UInt8}
    (hfile : file ∈ s.handles) (hhandles : s'.handles = s.handles)
    (hk : Kept L s s' (Fs.names s.fs.dev L.root) nothing written (· = file))
    (hpos : (s'.fs.files file).pos = pos)
    (hcontents : ∀ k, s.IsFile L k → contents (ident k) = fileBytes s'.fs.dev k) :
    Represents L ident s' { m with
      contents := contents
      handles := update m.handles file (some (ident (s.sectorOf file), pos)) } := by
  refine h.next hk rfl h.names hcontents ?_ ?_
  · intro c hc
    change update m.handles file _ c = _
    by_cases hne : c = file
    · rw [hne, update_self, hk.sector file hfile (hhandles ▸ hfile), hpos]
    · rw [update_of_ne hne]
      exact h.opened_of_kept hk (hhandles ▸ hc) hc hne
  · intro c hc
    rw [hhandles] at hc
    have hne : c ≠ file := fun heq => hc (heq ▸ hfile)
    change update m.handles file _ c = none
    rw [update_of_ne hne]
    exact h.closed c hc

/-- The new file gets a number that no file has had. -/
theorem create {bs : List UInt8} (hhandles : s'.handles = s.handles) (hf : ¬ s.IsFile L f)
    (hk : Kept L s s' (update (Fs.names s.fs.dev L.root) name (some f)) (· = f) nothing nothing)
    (hbytes : fileBytes s'.fs.dev f = bs) :
    Represents L (update ident f m.created) s' { m with
      names := update m.names name (some m.created)
      contents := update m.contents m.created bs
      created := m.created + 1 } := by
  have hold : ∀ k, s.IsFile L k → update ident f m.created k = ident k := by
    intro k hk'
    have hne : k ≠ f := fun heq => hf (heq ▸ hk')
    exact update_of_ne hne _ _
  have hnew : update ident f m.created f = m.created := update_self ..
  have hlt : ∀ k, s.IsFile L k → ident k ≠ m.created := fun k hk' => (h.lt k hk').ne
  refine ⟨hk.inv, ?_, ?_, ?_, ?_, ?_, ?_⟩
  · intro k l hk' hl' heq
    rcases hk.isFile k hk' with hkf | rfl <;> rcases hk.isFile l hl' with hlf | rfl
    · rw [hold k hkf, hold l hlf] at heq
      exact h.inj k l hkf hlf heq
    · rw [hold k hkf, hnew] at heq
      exact absurd heq (hlt k hkf)
    · rw [hold l hlf, hnew] at heq
      exact absurd heq.symm (hlt l hlf)
    · rfl
  · intro k hk'
    rcases hk.isFile k hk' with hkf | rfl
    · rw [hold k hkf]
      exact (h.lt k hkf).trans (Nat.lt_succ_self _)
    · rw [hnew]
      exact Nat.lt_succ_self _
  · intro n
    rw [hk.names]
    change update m.names name _ n = _
    by_cases hn : n = name
    · rw [hn, update_self, update_self, map_some, hnew]
    · rw [update_of_ne hn, update_of_ne hn, h.names n]
      cases hsome : Fs.names s.fs.dev L.root n with
      | none => rfl
      | some k => rw [map_some, map_some, hold k (h.inv.isFile_of_names hsome)]
  · intro k hk'
    rcases hk.isFile k hk' with hkf | rfl
    · rw [hold k hkf, hk.bytes k hkf id, ← h.contents k hkf]
      exact update_of_ne (hlt k hkf) _ _
    · rw [hnew, hbytes]
      exact update_self ..
  · intro file hfile
    have hmem : file ∈ s.handles := hhandles ▸ hfile
    rw [hk.sector file hmem hfile, hold _ (h.inv.isFile hmem), hk.pos file hmem hfile id]
    exact h.opened file hmem
  · intro file hfile
    exact h.closed file (hhandles ▸ hfile)

/-- The file just opened is at its beginning. -/
theorem openSome (hhandles : s'.handles = file :: s.handles)
    (hk : Kept L s s' (Fs.names s.fs.dev L.root) nothing nothing nothing)
    (hsector : s'.sectorOf file = f) (hpos : (s'.fs.files file).pos = 0) :
    Represents L ident s' { m with handles := update m.handles file (some (ident f, 0)) } := by
  refine h.next hk rfl h.names ?_ ?_ ?_
  · intro k hk'
    rw [h.contents k hk', hk.bytes k hk' id]
  · intro c hc
    change update m.handles file _ c = _
    by_cases hne : c = file
    · rw [hne, update_self, hsector, hpos]
    · rw [update_of_ne hne]
      have hmem : c ∈ s.handles := by
        rw [hhandles] at hc
        exact mem_of_ne_of_mem hne hc
      exact h.opened_of_kept hk hmem hc id
  · intro c hc
    rw [hhandles, mem_cons, not_or] at hc
    change update m.handles file _ c = none
    rw [update_of_ne hc.1]
    exact h.closed c hc.2

theorem remove (hhandles : s'.handles = s.handles)
    (hk : Kept L s s' (update (Fs.names s.fs.dev L.root) name none) nothing nothing nothing) :
    Represents L ident s' { m with names := update m.names name none } := by
  refine h.next hk rfl ?_ ?_ ?_ ?_
  · intro n
    change update m.names name none n = _
    by_cases hn : n = name
    · rw [hn, update_self, update_self, map_none]
    · rw [update_of_ne hn, update_of_ne hn]
      exact h.names n
  · intro k hk'
    rw [h.contents k hk', hk.bytes k hk' id]
  · exact fun file hfile => h.opened_of_kept hk (hhandles ▸ hfile) hfile id
  · exact fun file hfile => h.closed file (hhandles ▸ hfile)

theorem close (hhandles : s'.handles = s.handles.erase file)
    (hk : Kept L s s' (Fs.names s.fs.dev L.root) nothing nothing nothing) :
    Represents L ident s' { m with handles := update m.handles file none } := by
  have hmem : ∀ c, c ∈ s'.handles ↔ c ≠ file ∧ c ∈ s.handles := by
    intro c
    rw [hhandles]
    exact h.inv.nodup.mem_erase_iff
  refine h.next hk rfl h.names ?_ ?_ ?_
  · intro k hk'
    rw [h.contents k hk', hk.bytes k hk' id]
  · intro c hc
    obtain ⟨hne, hc'⟩ := (hmem c).mp hc
    change update m.handles file none c = _
    rw [update_of_ne hne]
    exact h.opened_of_kept hk hc' hc id
  · intro c hc
    change update m.handles file none c = none
    by_cases hne : c = file
    · rw [hne, update_self]
    · rw [update_of_ne hne]
      exact h.closed c fun hc' => hc ((hmem c).mpr ⟨hne, hc'⟩)

/-- **Every outcome is a step of the map.** -/
theorem step (heffect : Effect L s s' op r) :
    ∃ m' ident', NameMap.Step m (op, r) m' ∧ Represents L ident' s' m' := by
  cases heffect with
  | createFailed hhandles hk => exact ⟨m, ident, .createFailed, h.unchanged hhandles hk⟩
  | create f hhandles hsize hnone hf hk hzeros =>
    refine ⟨_, _, .create hsize ?_, h.create hhandles hf hk hzeros⟩
    rw [h.names, hnone]
    rfl
  | openNone hhandles hnone hk =>
    refine ⟨m, ident, .openNone ?_, h.unchanged hhandles hk⟩
    rw [h.names, hnone]
    rfl
  | openSome hhandles hnew hname hk hsector hpos =>
    refine ⟨_, ident, .openSome ?_ (h.closed _ hnew), h.openSome hhandles hk hsector hpos⟩
    rw [h.names, hname]
    rfl
  | @remove name hhandles hk =>
    have hisSome : (Fs.names s.fs.dev L.root name).isSome = (m.names name).isSome := by
      rw [h.names, isSome_map]
    rw [hisSome]
    exact ⟨_, ident, .remove, h.remove hhandles hk⟩
  | @read file _ _ hfile hhandles hbs hk hpos =>
    refine ⟨_, ident, .read (h.opened file hfile) ?_, h.moves hfile hhandles hk hpos ?_⟩
    · rwa [h.contents _ (h.inv.isFile hfile)]
    · intro k hk'
      rw [h.contents k hk', hk.bytes k hk' id]
  | @write file _ _ hfile hhandles hn hk hbytes hpos =>
    have hcontents := h.contents _ (h.inv.isFile hfile)
    refine ⟨_, ident, .write (h.opened file hfile) ?_, h.moves hfile hhandles hk hpos ?_⟩
    · rw [hcontents]
      exact hn
    · intro k hk'
      by_cases hne : k = s.sectorOf file
      · rw [hne, update_self, hbytes, hcontents]
      · have hident : ident k ≠ ident (s.sectorOf file) :=
          fun heq => hne (h.inj k _ hk' (h.inv.isFile hfile) heq)
        rw [update_of_ne hident, h.contents k hk', hk.bytes k hk' hne]
  | @seek file _ hfile hhandles hnonneg hk hpos =>
    refine ⟨_, ident, .seek (h.opened file hfile) hnonneg, h.moves hfile hhandles hk hpos ?_⟩
    intro k hk'
    rw [h.contents k hk', hk.bytes k hk' id]
  | close hfile hhandles hk => exact ⟨_, ident, .close (h.opened _ hfile), h.close hhandles hk⟩

end

end Represents

theorem observed_simulates :
    Lts.Simulates (observed (.plenty stack)) NameMap.lts
      fun s m => ∃ L ident, Represents L ident s m where
  init := by
    intro s hs
    obtain ⟨L, hinv, hfile⟩ := Formatted.inv hs
    refine ⟨.empty, rfl, L, id, hinv, ?_, ?_, ?_, ?_, ?_, fun _ _ => rfl⟩
    · exact fun k _ hk => absurd hk (hfile k)
    · exact fun k hk => absurd hk (hfile k)
    · intro name
      cases hname : names s.fs.dev L.root name with
      | none => rfl
      | some k => exact absurd (hinv.isFile_of_names hname) (hfile k)
    · exact fun k hk => absurd hk (hfile k)
    · exact fun file hmem => absurd (hinv.isFile hmem) (hfile _)
  step := by
    rintro s ⟨op, r⟩ s' m ⟨L, ident, h⟩ ⟨hlegal, hexec⟩
    obtain ⟨m', ident', hstep, h'⟩ := h.step (effect_of_exec h.inv hlegal hexec)
    exact ⟨m', hstep, L, ident', h'⟩

/-- **The file system refines the map**: the results of every sequence of operations are results
of the map, and every operation on open files returns, unless it has a negative argument. -/
theorem refines_nameMap {t : List (Op × Result)} (h : (observed (.plenty stack)).Trace t s) :
    (∃ m, NameMap.lts.Trace t m) ∧
      ∀ op, s.Legal op → ¬ op.Negative → ∃ s' r, s.exec (.plenty stack) op = .ok (s', r) := by
  obtain ⟨m, htrace, L, ident, hrep⟩ := h.simulate observed_simulates
  refine ⟨⟨m, htrace⟩, fun op hlegal hneg => ?_⟩
  rcases exec_effect hrep.inv hlegal with ⟨s', r, hexec, -⟩ | ⟨hneg', -⟩
  · exact ⟨s', r, hexec⟩
  · exact absurd hneg' hneg

/-! ## a concrete trace -/

theorem trace_of_results {memory : Memory} {t : List (Op × Result)} {ops : List Op}
    {rs : List Result} (h : (observed memory).Trace t s)
    (hrun : results memory s ops = some (rs, s')) :
    (observed memory).Trace (t ++ ops.zip rs) s' := by
  induction ops generalizing s t rs with
  | nil =>
    cases hrun
    rwa [zip_nil_right, append_nil]
  | cons op ops ih =>
    rw [results] at hrun
    split at hrun
    · next hlegal =>
      split at hrun
      · next s₁ r hexec =>
        obtain ⟨⟨rs₁, s₂⟩, hrest, heq⟩ := map_eq_some_iff.mp hrun
        cases heq
        have hnext := ih (h.snoc (a := (op, r)) ⟨hlegal, hexec⟩) hrest
        rwa [append_assoc] at hnext
      · cases hrun
    · cases hrun

/-- A file is opened and removed, and another created under its name. -/
def removedOps : List Op :=
  [.create nameA ⟨3, by decide⟩, .open nameA, .remove nameA, .create nameA ⟨1, by decide⟩,
    .write 7 [5, 6], .seek 7 ⟨0, zero_offT⟩, .read 7 ⟨9, by decide⟩]

/-- The first file is still read and written. -/
def removedResults : List Result :=
  [.success true, .file (some 7), .success true, .success true, .written 2, .none, .bytes [5, 6, 0]]

theorem refines_nameMap_removed :
    ∃ s m, (observed (.plenty blankEntry)).Trace (removedOps.zip removedResults) s ∧
      NameMap.lts.Trace (removedOps.zip removedResults) m ∧
      ∃ s' r, s.exec (.plenty blankEntry) (.remove ⟨[97], by decide⟩) = .ok (s', r) := by
  have hrun : ((filesysInit smallDevice (fun _ => true) (.plenty blankEntry)).toOption.bind fun fs =>
      results (.plenty blankEntry) ⟨fs, []⟩ removedOps).map Prod.fst = some removedResults := by
    decide +kernel
  obtain ⟨⟨rs, s⟩, hrs, rfl⟩ := map_eq_some_iff.mp hrun
  obtain ⟨fs, hfs, hresults⟩ := bind_eq_some_iff.mp hrs
  have htrace := trace_of_results (.nil (formatted_of_toOption hfs)) hresults
  obtain ⟨⟨m, hm⟩, hreturns⟩ := refines_nameMap htrace
  exact ⟨s, m, htrace, hm, hreturns _ trivial nofun⟩

end Pintos.Fs

