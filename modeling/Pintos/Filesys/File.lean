import Pintos.Filesys.Filesys

/-!
# Pintos.Filesys.File

Open files (`filesys/file.c`) over open inodes (`filesys/inode.c`).

The data of an inode is an array of bytes: `inode_read_at` and `inode_write_at` read and
replace a slice of it (`inode_access`).

Two counters of a `struct inode` are shared by everybody who has it open.  `Balanced` says what
they count: `open_cnt` the references to the inode, `deny_write_cnt` those with a denial.  Each
operation keeps it with the reference or the denial that it adds or takes away, and `fileMachine`
is any sequence of operations on any handles.
-/

namespace Pintos.Fs

open Bytes InodeDisk
open Function List

/-! ## slices of the data -/

/-- `inode_read_at`: the bytes that it reads.  The loop stops at once at a `size` that is not
positive. -/
def inodeRead (dev : Device) (inode : Inode) (size : OffT) (offset : Nat) (memory : Bool) :
    Except Assertion (List UInt8) :=
  inodeReadAt dev inode.data size.val.toNat offset memory

/-- `inode_write_at` of `size` bytes from `buffer` on. -/
def inodeWrite (dev : Device) (inode : Inode) (buffer : Nat → UInt8) (size : OffT) (offset : Nat)
    (memory : Bool) : Except Assertion (Device × Nat) :=
  inodeWriteAt dev inode.data inode.denied (read buffer 0 size.val.toNat) offset memory

section

variable {dev : Device} {data : InodeDisk} {size offset n : Nat} {bs : List UInt8} {fuel : Nat}

/-- What lies below the length, as a number that is cut off at zero. -/
theorem below_eq_max (size : OffT) (offset : Nat) :
    (data.below size.val.toNat offset : Int)
      = max 0 (min size.val ((data.length : Int) - offset)) := by
  unfold InodeDisk.below
  omega

theorem below_fits (data : InodeDisk) (size offset : Nat) :
    data.below size offset = 0 ∨ offset + data.below size offset ≤ data.length := by
  unfold InodeDisk.below
  omega

theorem read_eq_slice (h : n = 0 ∨ offset + n ≤ data.length) :
    read dev.bytes (data.addr offset) n = ((content dev data).drop offset).take n := by
  rcases h with rfl | hle
  · rw [read_zero, take_zero]
  · rw [content, take_drop_read hle]
    unfold addr
    rw [add_zero]

theorem content_write (h : bs.length = 0 ∨ offset + bs.length ≤ data.length) :
    content { dev with bytes := write dev.bytes (data.addr offset) bs } data
      = patch (content dev data) offset bs := by
  have haddr : data.addr offset = data.addr 0 + offset := by
    unfold addr
    rw [add_zero]
  rcases h with hnil | hle
  · obtain rfl := length_eq_zero_iff.mp hnil
    rw [write_nil, patch, append_nil, length_nil, add_zero, take_append_drop]
  · rw [content, content, haddr]
    exact read_write_patch hle

theorem blockRead_write {sector : Nat} (h : bs.length = 0 ∨ offset + bs.length ≤ data.length)
    (hout : ¬ (data.start ≤ sector ∧ sector < data.start + data.sectors)) :
    blockRead { dev with bytes := write dev.bytes (data.addr offset) bs } sector
      = blockRead dev sector := by
  have hdisj : bs.length = 0 ∨ sector * blockSectorSize + blockSectorSize ≤ data.addr offset ∨
      data.addr offset + bs.length ≤ sector * blockSectorSize := by
    unfold sectors at hout
    unfold addr
    unfold blockSectorSize at *
    omega
  unfold blockRead
  dsimp only
  rcases hdisj with hnil | hdisj
  · rw [length_eq_zero_iff.mp hnil, write_nil]
  · rw [read_write_of_disjoint hdisj]

/-- A write below the length needs the bounce buffer. -/
def NeedsBounce (offset n : Nat) : Prop :=
  offset % blockSectorSize ≠ 0 ∨ n % blockSectorSize ≠ 0

theorem written_eq_below {memory : Bool} :
    data.written memory size offset = data.below size offset ↔ data.below size offset = 0 ∨
      memory = true ∨ ¬ NeedsBounce offset (data.below size offset) := by
  unfold written NeedsBounce
  cases memory with
  | true => simp
  | false =>
    unfold blockSectorSize
    grind

theorem written_le (data : InodeDisk) (memory : Bool) (size offset : Nat) :
    data.written memory size offset ≤ data.below size offset := by
  unfold written
  split
  · exact le_rfl
  · split
    · exact Nat.div_mul_le_self ..
    · exact Nat.zero_le _

/-- The sectors that `byte_to_sector` can return. -/
def InodeDisk.Extent (data : InodeDisk) (sector : Nat) : Prop :=
  data.start ≤ sector ∧ sector < data.start + data.sectors

/-- A byte below the length is in the extent. -/
theorem extent_addr {x : Nat} (hle : data.addr 0 ≤ x) (hlt : x < data.addr data.length) :
    data.Extent (x / blockSectorSize) := by
  unfold Extent sectors
  unfold addr blockSectorSize at *
  omega

/-- **`inode_write_at` writes to the extent of the inode**, whatever memory there is. -/
theorem writeLoop_off {memory : Bool} {dev' : Device}
    (hrun : writeLoop data memory fuel dev bs offset = .ok (dev', n)) :
    Device.Off data.Extent dev dev' := by
  induction fuel generalizing dev bs offset n with
  | zero =>
    cases hrun
    exact .refl _ _
  | succ fuel ih =>
    unfold writeLoop at hrun
    dsimp only at hrun
    split at hrun
    next =>
      cases hrun
      exact .refl _ _
    next hgo =>
      rw [Bool.or_eq_true, not_or] at hgo
      have hchunk : chunkSize data bs.length offset ≠ 0 := fun hzero =>
        hgo.1 (decide_eq_true hzero)
      obtain ⟨hlt, hsize, hsector, hleft⟩ := chunkSize_pos hchunk
      have hlen := length_take_of_le hsize
      obtain ⟨sector, hbuffer, hrun⟩ := bind_eq_ok hrun
      obtain ⟨dev₁, hwrite, hrun⟩ := bind_eq_ok hrun
      obtain ⟨⟨dev₂, written⟩, hrest, hrun⟩ := bind_eq_ok hrun
      cases hrun
      unfold blockWrite at hwrite
      split at hwrite
      next hdev =>
        cases hwrite
        obtain ⟨sector', hbuffer', hput⟩ := write_sectorBuffer hlt
          (le_trans (le_of_eq (congrArg _ hlen)) hsector) hdev
        cases hbuffer.symm.trans hbuffer'
        have hoff : Device.Off data.Extent dev
            (dev.put (data.addr offset) (bs.take (chunkSize data bs.length offset))) := by
          refine .put fun x hle hlt => extent_addr ?_ ?_
          all_goals
            rw [hlen] at hlt
            unfold addr at hle hlt ⊢
            omega
        rw [hput] at hrest
        exact hoff.trans (ih hrest)
      next => cases hwrite

theorem writeLoop_end {memory : Bool} (hend : data.length ≤ offset) :
    writeLoop data memory fuel dev bs offset = .ok (dev, 0) := by
  have hchunk : chunkSize data bs.length offset = 0 := by
    unfold chunkSize
    omega
  cases fuel with
  | zero => rfl
  | succ fuel => simp [writeLoop, hchunk]

/-- **What `inode_write_at` writes**: nothing when writes are denied; all that lies below the
length when there is memory for the bounce buffer or no need of it; and less otherwise. -/
theorem inodeWriteAt_spec (h : OnDevice dev data) (deny memory : Bool) (bs : List UInt8)
    (offset : Nat) :
    ∃ dev' n, inodeWriteAt dev data deny bs offset memory = .ok (dev', n) ∧
      (n = data.below bs.length offset → content dev' data =
        patch (content dev data) offset (bs.take n)) ∧
      (n = data.below bs.length offset ↔ data.below bs.length offset = 0 ∨ deny = false ∧
        (memory = true ∨ ¬ NeedsBounce offset (data.below bs.length offset))) := by
  cases deny with
  | true =>
    refine ⟨dev, 0, rfl, fun _ => ?_, ?_⟩
    · rw [take_zero, patch, append_nil, length_nil, add_zero, take_append_drop]
    · simp [eq_comm]
  | false =>
    have hfits : (bs.take (data.written memory bs.length offset)).length = 0 ∨
        offset + (bs.take (data.written memory bs.length offset)).length ≤ data.length := by
      have := below_fits data bs.length offset
      have := written_le data memory bs.length offset
      rw [length_take]
      omega
    exact ⟨_, _, writeLoop_eq h le_rfl, fun _ => content_write hfits,
      written_eq_below.trans (by simp)⟩

end

/-- **The data of an inode is an array of bytes**, of which `inode_read_at` reads and
`inode_write_at` replaces a slice. -/
theorem inode_access {dev : Device} {inode : Inode} (h : OnDevice dev inode.data) (size : OffT)
    (offset : Nat) (buffer : Nat → UInt8) :
    ∃ n : Nat, (n : Int) = max 0 (min size.val ((inode.data.length : Int) - offset)) ∧
      inodeRead dev inode size offset true =
        .ok (((content dev inode.data).drop offset).take n) ∧
      (((content dev inode.data).drop offset).take n).length = n ∧
      (inode.denyWriteCnt = 0 → ∃ dev',
        inodeWrite dev inode buffer size offset true = .ok (dev', n) ∧
        content dev' inode.data = patch (content dev inode.data) offset (read buffer 0 n) ∧
        ∀ sector, ¬ (inode.data.start ≤ sector ∧ sector < inode.data.start + inode.data.sectors) →
          blockRead dev' sector = blockRead dev sector) ∧
      (inode.denyWriteCnt > 0 → inodeWrite dev inode buffer size offset true = .ok (dev, 0)) := by
  have hfits := below_fits inode.data size.val.toNat offset
  have hbelow : inode.data.below size.val.toNat offset ≤ size.val.toNat := min_le_left _ _
  refine ⟨inode.data.below size.val.toNat offset, below_eq_max size offset, ?_, ?_, ?_, ?_⟩
  · rw [inodeRead, inodeReadAt_eq h, read_eq_slice hfits]
  · rw [← read_eq_slice hfits, length_read]
  · intro hallowed
    have hdenied : inode.denied = false := decide_eq_false (not_not_intro hallowed)
    have htake : (read buffer 0 size.val.toNat).take (inode.data.below size.val.toNat offset)
        = read buffer 0 (inode.data.below size.val.toNat offset) :=
      take_drop_read (i := 0) (by omega)
    have hlen : (read buffer 0 (inode.data.below size.val.toNat offset)).length = 0 ∨
        offset + (read buffer 0 (inode.data.below size.val.toNat offset)).length
          ≤ inode.data.length := by
      rwa [length_read]
    refine ⟨_, ?_, content_write hlen, fun sector hout => blockRead_write hlen hout⟩
    rw [inodeWrite, hdenied, inodeWriteAt_eq h, length_read, htake]
  · intro hdenied
    have hdenied' : inode.denied = true := decide_eq_true (by omega)
    rw [inodeWrite, hdenied', inodeWriteAt, if_pos rfl]

/-- An access that begins in one sector and ends in another. -/
theorem inode_access_across :
    ∃ n : Nat, (n : Int) = max 0 (min (40 : Int) (((530 : Nat) : Int) - (500 : Nat))) ∧
      inodeRead ⟨4, fun x => UInt8.ofNat x⟩ ⟨1, 1, false, 0, ⟨2, 530⟩⟩ ⟨40, by decide⟩ 500 true =
        .ok (((content ⟨4, fun x => UInt8.ofNat x⟩ ⟨2, 530⟩).drop 500).take n) ∧
      ∃ dev', inodeWrite ⟨4, fun x => UInt8.ofNat x⟩ ⟨1, 1, false, 0, ⟨2, 530⟩⟩ (fun _ => 7)
        ⟨40, by decide⟩ 500 true = .ok (dev', n) := by
  have hfits : OnDevice ⟨4, fun x => UInt8.ofNat x⟩ (⟨1, 1, false, 0, ⟨2, 530⟩⟩ : Inode).data := by
    unfold OnDevice
    decide
  obtain ⟨n, hn, hread, -, hwrite, -⟩ := inode_access hfits ⟨40, by decide⟩ 500 fun _ => 7
  obtain ⟨dev', hdev', -⟩ := hwrite rfl
  exact ⟨n, hn, hread, dev', hdev'⟩

/-! ## reopening and denying -/

/-- `file_reopen`. -/
def fileReopen (s : FileSys) (file : Nat) (memory : Memory) :
    Except Assertion (FileSys × Option Nat) :=
  fileOpen (inodeReopen s (s.files file).inode) (some (s.files file).inode) memory

/-- `inode_deny_write`. -/
def inodeDenyWrite (s : FileSys) (inode : Nat) : Except Assertion FileSys :=
  let i := s.inodes inode
  let cnt := i.denyWriteCnt + 1
  if cnt ≤ i.openCnt then .ok (s.setInode inode { i with denyWriteCnt := cnt })
  else .error .denyWrite

/-- `file_deny_write`. -/
def fileDenyWrite (s : FileSys) (file : Nat) : Except Assertion FileSys :=
  if (s.files file).denyWrite then
    .ok s
  else
    inodeDenyWrite (s.setFile file { s.files file with denyWrite := true }) (s.files file).inode

/-! ## what the counters count -/

/-- The files stay, and no new object takes their place. -/
def KeepsFiles (s s' : FileSys) : Prop := s'.files = s.files ∧ s.next ≤ s'.next

theorem KeepsFiles.refl (s : FileSys) : KeepsFiles s s := ⟨rfl, le_rfl⟩

theorem KeepsFiles.trans {s s' s'' : FileSys} (h : KeepsFiles s s') (h' : KeepsFiles s' s'') :
    KeepsFiles s s'' := ⟨h'.1.trans h.1, le_trans h.2 h'.2⟩

/-- The counters of the open inodes: `refs` has an inode once for each reference to it, `denials`
once for each reference with a denial. -/
structure Balanced (s : FileSys) (refs denials : List Nat) : Prop where
  nodup : s.openInodes.Nodup
  lt : ∀ inode ∈ s.openInodes, inode < s.next
  mem : ∀ inode, inode ∈ s.openInodes ↔ inode ∈ refs
  openCnt : ∀ inode ∈ s.openInodes, (s.inodes inode).openCnt = refs.count inode
  denyWriteCnt : ∀ inode ∈ s.openInodes, (s.inodes inode).denyWriteCnt = denials.count inode
  le : ∀ inode, denials.count inode ≤ refs.count inode

namespace Balanced

variable {s s' : FileSys} {refs refs' denials denials' : List Nat} {inode : Nat}

section

variable (h : Balanced s refs denials) {i : Inode}
include h

theorem perm (hr : refs.Perm refs') (hd : denials.Perm denials') :
    Balanced s refs' denials' where
  nodup := h.nodup
  lt := h.lt
  mem := fun i => (h.mem i).trans hr.mem_iff
  openCnt := fun i hi => by rw [h.openCnt i hi, hr.count_eq]
  denyWriteCnt := fun i hi => by rw [h.denyWriteCnt i hi, hd.count_eq]
  le := fun i => by rw [← hr.count_eq, ← hd.count_eq]; exact h.le i

theorem congr (hinodes : s'.inodes = s.inodes)
    (hopen : s'.openInodes = s.openInodes) (hnext : s.next ≤ s'.next) :
    Balanced s' refs denials where
  nodup := hopen ▸ h.nodup
  lt := fun i hi => lt_of_lt_of_le (h.lt i (hopen ▸ hi)) hnext
  mem := fun i => hopen ▸ h.mem i
  openCnt := fun i hi => by rw [hinodes]; exact h.openCnt i (hopen ▸ hi)
  denyWriteCnt := fun i hi => by rw [hinodes]; exact h.denyWriteCnt i (hopen ▸ hi)
  le := h.le

theorem setInode (hi : inode ∈ refs) (hi' : inode ∈ refs')
    (hopen : i.openCnt = refs'.count inode) (hdeny : i.denyWriteCnt = denials'.count inode)
    (hcount : ∀ a, a ≠ inode → refs'.count a = refs.count a)
    (hdenials : ∀ a, a ≠ inode → denials'.count a = denials.count a)
    (hle : denials'.count inode ≤ refs'.count inode) :
    Balanced (s.setInode inode i) refs' denials' where
  nodup := h.nodup
  lt := h.lt
  mem := by
    intro a
    rw [h.mem]
    by_cases heq : a = inode
    · exact heq ▸ iff_of_true hi hi'
    · rw [← count_pos_iff, ← hcount a heq, count_pos_iff]
  openCnt := (forall_update_iff s.inodes fun a (i : Inode) => a ∈ s.openInodes →
      i.openCnt = refs'.count a).mpr
    ⟨fun _ => hopen, fun a hne ha => by rw [h.openCnt a ha, hcount a hne]⟩
  denyWriteCnt := (forall_update_iff s.inodes fun a (i : Inode) => a ∈ s.openInodes →
      i.denyWriteCnt = denials'.count a).mpr
    ⟨fun _ => hdeny, fun a hne ha => by rw [h.denyWriteCnt a ha, hdenials a hne]⟩
  le := by
    intro a
    by_cases heq : a = inode
    · exact heq ▸ hle
    · rw [hdenials a heq, hcount a heq]
      exact h.le a

/-! ### inodes -/

theorem inodeReopen (hi : inode ∈ refs) :
    Balanced (inodeReopen s inode) (inode :: refs) denials := by
  have hopen := (h.mem inode).mpr hi
  refine h.setInode hi mem_cons_self ?_ (h.denyWriteCnt inode hopen)
    (fun a ha => count_cons_of_ne ha.symm) (fun _ _ => rfl) ?_
  · rw [h.openCnt inode hopen, count_cons_self]
    rfl
  · rw [count_cons_self]
    exact Nat.le_succ_of_le (h.le inode)

theorem inodeRemove (hi : inode ∈ refs) : Balanced (inodeRemove s inode) refs denials := by
  have hopen := (h.mem inode).mpr hi
  exact h.setInode hi hi (h.openCnt inode hopen) (h.denyWriteCnt inode hopen)
    (fun _ _ => rfl) (fun _ _ => rfl) (h.le inode)

theorem pushInode (hopen : i.openCnt = 1)
    (hdeny : i.denyWriteCnt = 0) : Balanced (s.pushInode i) (s.next :: refs) denials := by
  have hnew : ∀ a ∈ s.openInodes, a ≠ s.next := fun a ha => ne_of_lt (h.lt a ha)
  have hrefs : refs.count s.next = 0 := count_eq_zero_of_not_mem fun hmem =>
    hnew _ ((h.mem _).mpr hmem) rfl
  have hdenials : denials.count s.next = 0 := by
    have := h.le s.next
    omega
  have hself : (s.pushInode i).inodes s.next = i := update_self ..
  have hother : ∀ a ∈ s.openInodes, (s.pushInode i).inodes a = s.inodes a := fun a ha =>
    update_of_ne (hnew a ha) ..
  refine ⟨?_, fun a ha => ?_, fun a => ?_, fun a ha => ?_, fun a ha => ?_, fun a => ?_⟩
  · exact nodup_cons.mpr ⟨fun hmem => hnew _ hmem rfl, h.nodup⟩
  · change a < s.next + 1
    rcases mem_cons.mp ha with rfl | ha
    · exact Nat.lt_succ_self _
    · exact Nat.lt_succ_of_lt (h.lt a ha)
  · rw [mem_cons, mem_cons, h.mem]
  · rcases mem_cons.mp ha with rfl | ha
    · rw [hself, hopen, count_cons_self, hrefs]
      rfl
    · rw [hother a ha, h.openCnt a ha, count_cons_of_ne (hnew a ha).symm]
  · rcases mem_cons.mp ha with rfl | ha
    · rw [hself, hdeny, hdenials]
      rfl
    · rw [hother a ha, h.denyWriteCnt a ha]
  · exact le_trans (h.le a) count_le_count_cons

/-- **`inode_open`** adds a reference to the inode that it returns. -/
theorem inodeOpen {sector : Nat} {memory : Bool}
    {inode : Option Nat} (hrun : inodeOpen s sector memory = .ok (s', inode)) :
    Balanced s' (inode.toList ++ refs) denials ∧ KeepsFiles s s' := by
  unfold Fs.inodeOpen at hrun
  cases hfind : s.openInodes.find? fun a => (s.inodes a).sector = sector with
  | some a =>
    rw [hfind] at hrun
    cases hrun
    have ha := mem_of_find?_eq_some hfind
    exact ⟨h.inodeReopen ((h.mem a).mp ha), rfl, le_rfl⟩
  | none =>
    rw [hfind] at hrun
    dsimp only at hrun
    split at hrun
    · obtain ⟨bs, -, hrun⟩ := bind_eq_ok hrun
      cases hrun
      exact ⟨h.pushInode rfl rfl, rfl, Nat.le_succ _⟩
    · cases hrun
      exact ⟨h, .refl _⟩

theorem freeMapRelease {sector cnt : Nat} {memory : Bool}
    (hrun : freeMapRelease s sector cnt memory = .ok s') :
    Balanced s' refs denials ∧ KeepsFiles s s' := by
  obtain ⟨st, -, hrun⟩ := bind_eq_ok hrun
  cases hrun
  exact ⟨h.congr rfl rfl le_rfl, rfl, le_rfl⟩

end

theorem dropInode (h : Balanced s (inode :: refs) denials) (hlast : inode ∉ refs)
    (hle : denials.count inode = 0) : Balanced (s.dropInode inode) refs denials := by
  have hmem : ∀ a, a ∈ s.openInodes.erase inode ↔ a ≠ inode ∧ a ∈ s.openInodes := fun a =>
    h.nodup.mem_erase_iff
  have hother : ∀ a, a ≠ inode → (s.dropInode inode).inodes a = s.inodes a := fun a ha =>
    update_of_ne ha ..
  refine ⟨h.nodup.erase _, fun a ha => ?_, fun a => ?_, fun a ha => ?_, fun a ha => ?_, fun a => ?_⟩
  · exact h.lt a ((hmem a).mp ha).2
  · rw [hmem, h.mem, mem_cons]
    exact ⟨fun ⟨hne, hor⟩ => hor.resolve_left hne, fun ha => ⟨fun heq => hlast (heq ▸ ha), .inr ha⟩⟩
  · obtain ⟨hne, ha⟩ := (hmem a).mp ha
    rw [hother a hne, h.openCnt a ha, count_cons_of_ne hne.symm]
  · obtain ⟨hne, ha⟩ := (hmem a).mp ha
    rw [hother a hne, h.denyWriteCnt a ha]
  · by_cases heq : a = inode
    · rw [heq, hle]
      exact Nat.zero_le _
    · have := h.le a
      rwa [count_cons_of_ne (Ne.symm heq)] at this

/-- **`inode_close`** takes away one reference to an inode that has no denial left on it. -/
theorem inodeClose (h : Balanced s (inode :: refs) denials)
    (hle : denials.count inode ≤ refs.count inode) {sectorMap dataMap : Bool}
    (hrun : inodeClose s inode sectorMap dataMap = .ok s') :
    Balanced s' refs denials ∧ KeepsFiles s s' := by
  have hopen := (h.mem inode).mpr mem_cons_self
  have hcnt : (s.inodes inode).closed.openCnt = refs.count inode := by
    change (s.inodes inode).openCnt - 1 = _
    rw [h.openCnt inode hopen, count_cons_self]
    omega
  unfold Fs.inodeClose at hrun
  dsimp only at hrun
  split at hrun
  next hzero =>
    have hnone : refs.count inode = 0 := by
      have := hcnt.symm.trans hzero
      omega
    have hdrop := h.dropInode (count_eq_zero.mp hnone) (by omega)
    split at hrun
    · obtain ⟨s₁, hrun₁, hrun⟩ := bind_eq_ok hrun
      obtain ⟨h₁, hkeeps₁⟩ := hdrop.freeMapRelease hrun₁
      obtain ⟨h₂, hkeeps₂⟩ := h₁.freeMapRelease hrun
      exact ⟨h₂, hkeeps₁.trans hkeeps₂⟩
    · cases hrun
      exact ⟨hdrop, rfl, le_rfl⟩
  next hpos =>
    cases hrun
    have hne : (refs.count inode : Int) ≠ 0 := fun hzero => hpos (hcnt.trans hzero)
    have hmem : inode ∈ refs := count_pos_iff.mp (by omega)
    exact ⟨h.setInode mem_cons_self hmem hcnt (h.denyWriteCnt inode hopen)
      (fun a ha => (count_cons_of_ne ha.symm).symm) (fun _ _ => rfl) hle, rfl, le_rfl⟩

/-- **`inode_deny_write`** by a reference without a denial does not fail. -/
theorem inodeDenyWrite (h : Balanced s refs denials)
    (hlt : denials.count inode < refs.count inode) :
    ∃ s', inodeDenyWrite s inode = .ok s' ∧ Balanced s' refs (inode :: denials) ∧
      KeepsFiles s s' := by
  have hmem : inode ∈ refs := count_pos_iff.mp (by omega)
  have hopen := (h.mem inode).mpr hmem
  have hopenCnt := h.openCnt inode hopen
  have hdeny := h.denyWriteCnt inode hopen
  unfold Fs.inodeDenyWrite
  dsimp only
  rw [if_pos (by omega)]
  refine ⟨_, rfl, h.setInode hmem hmem hopenCnt ?_ (fun _ _ => rfl)
    (fun a ha => count_cons_of_ne ha.symm) ?_, rfl, le_rfl⟩
  · rw [hdeny, count_cons_self]
    rfl
  · rwa [count_cons_self]

/-- **`inode_allow_write`** by a reference with a denial does not fail. -/
theorem inodeAllowWrite (h : Balanced s refs (inode :: denials)) :
    ∃ s', inodeAllowWrite s inode = .ok s' ∧ Balanced s' refs denials ∧ KeepsFiles s s' := by
  have hle := h.le inode
  rw [count_cons_self] at hle
  have hmem : inode ∈ refs := count_pos_iff.mp (by omega)
  have hopen := (h.mem inode).mpr hmem
  have hopenCnt := h.openCnt inode hopen
  have hdeny := h.denyWriteCnt inode hopen
  rw [count_cons_self] at hdeny
  unfold Fs.inodeAllowWrite
  dsimp only
  rw [if_pos ⟨by omega, by omega⟩]
  refine ⟨_, rfl, h.setInode hmem hmem hopenCnt ?_ (fun _ _ => rfl)
    (fun a ha => (count_cons_of_ne ha.symm).symm) ?_, rfl, le_rfl⟩
  · change (s.inodes inode).denyWriteCnt - 1 = _
    omega
  · omega

end Balanced

/-! ## handles -/

/-- The references that files have to inodes. -/
def fileRefs (s : FileSys) (files : List Nat) : List Nat :=
  files.map fun file => (s.files file).inode

/-- Those of the files whose `deny_write` flag is set. -/
def fileDenials (s : FileSys) (files : List Nat) : List Nat :=
  fileRefs s (files.filter fun file => (s.files file).denyWrite)

/-- Open files, and inodes that are open without a file. -/
structure Handles where
  fs : FileSys
  files : List Nat
  owned : List Nat

/-- An operation on files; `inode_open`, `inode_close` and `inode_remove` are what directories
do with inodes, and `transfer` is any reading, writing or seeking. -/
inductive FileOp
  | inodeOpen (sector : Nat) (memory : Bool)
  | inodeClose (inode : Nat) (sectorMap dataMap : Bool)
  | inodeRemove (inode : Nat)
  | fileOpen (inode : Nat) (memory : Memory)
  | fileReopen (file : Nat) (memory : Memory)
  | fileDenyWrite (file : Nat)
  | fileAllowWrite (file : Nat)
  | fileClose (file : Nat) (sectorMap dataMap : Bool)
  | transfer (file pos : Nat) (st : Store)

/-- The operation is on an open file, or on an inode that is open without a file. -/
def Handles.Legal (s : Handles) : FileOp → Prop
  | .inodeOpen .. => True
  | .inodeClose inode .. | .inodeRemove inode | .fileOpen inode _ => inode ∈ s.owned
  | .fileReopen file _ | .fileDenyWrite file | .fileAllowWrite file | .fileClose file ..
  | .transfer file .. => file ∈ s.files

instance Handles.decidableLegal (s : Handles) (op : FileOp) : Decidable (s.Legal op) := by
  cases op <;> unfold Handles.Legal <;> infer_instance

/-- One operation. -/
def Handles.exec (s : Handles) : FileOp → Except Assertion Handles
  | .inodeOpen sector memory => do
      let (fs, inode) ← inodeOpen s.fs sector memory
      return ⟨fs, s.files, inode.toList ++ s.owned⟩
  | .inodeClose inode sectorMap dataMap => do
      let fs ← inodeClose s.fs inode sectorMap dataMap
      return ⟨fs, s.files, s.owned.erase inode⟩
  | .inodeRemove inode => .ok { s with fs := inodeRemove s.fs inode }
  | .fileOpen inode memory => do
      let (fs, file) ← fileOpen s.fs (some inode) memory
      return ⟨fs, file.toList ++ s.files, s.owned.erase inode⟩
  | .fileReopen file memory => do
      let (fs, file') ← fileReopen s.fs file memory
      return ⟨fs, file'.toList ++ s.files, s.owned⟩
  | .fileDenyWrite file => do
      let fs ← fileDenyWrite s.fs file
      return { s with fs }
  | .fileAllowWrite file => do
      let fs ← fileAllowWrite s.fs file
      return { s with fs }
  | .fileClose file sectorMap dataMap => do
      let fs ← fileClose s.fs file sectorMap dataMap
      return ⟨fs, s.files.erase file, s.owned⟩
  | .transfer file pos st =>
    .ok { s with fs := (s.fs.withStore st).setFile file { s.fs.files file with pos } }

/-- Any sequence of operations, from a system with no open inode. -/
def fileMachine : Machine Handles FileOp where
  init := fun s => s.fs.openInodes = [] ∧ s.files = [] ∧ s.owned = []
  step := fun s op => if s.Legal op then (s.exec op).toOption else none

/-- The handles are different objects, and the counters count them. -/
structure Handles.Inv (s : Handles) : Prop where
  nodup : s.files.Nodup
  lt : ∀ file ∈ s.files, file < s.fs.next
  balanced : Balanced s.fs (fileRefs s.fs s.files ++ s.owned) (fileDenials s.fs s.files)

section

variable {fs fs' : FileSys} {files files' owned : List Nat} {file inode : Nat}

theorem lists_congr (h : ∀ f ∈ files, fs'.files f = fs.files f) :
    fileRefs fs' files = fileRefs fs files ∧ fileDenials fs' files = fileDenials fs files := by
  have hmap : ∀ l ⊆ files, fileRefs fs' l = fileRefs fs l := fun l hl =>
    map_congr_left fun f hf => by rw [h f (hl hf)]
  refine ⟨hmap files fun _ hf => hf, ?_⟩
  unfold fileDenials
  rw [filter_congr fun f hf => by rw [h f hf]]
  exact hmap _ filter_sublist.subset

theorem perm_fileRefs (fs : FileSys) (h : files.Perm files') :
    (fileRefs fs files).Perm (fileRefs fs files') := h.map _

theorem perm_fileDenials (fs : FileSys) (h : files.Perm files') :
    (fileDenials fs files).Perm (fileDenials fs files') := perm_fileRefs fs (h.filter _)

/-- The denial of the first file, if it has one. -/
theorem fileDenials_cons (fs : FileSys) (file : Nat) (files : List Nat) :
    fileDenials fs (file :: files) =
      (if (fs.files file).denyWrite then [(fs.files file).inode] else []) ++
        fileDenials fs files := by
  unfold fileDenials
  rw [filter_cons]
  split <;> rfl

theorem count_fileDenials_le (fs : FileSys) (files owned : List Nat) (inode : Nat) :
    (fileDenials fs files).count inode ≤ (fileRefs fs files ++ owned).count inode :=
  ((filter_sublist.map _).trans (sublist_append_left ..)).count_le inode

theorem files_of_mem_erase (h : files.Nodup) {f : Nat} (hf : f ∈ files.erase file) (v : File) :
    update fs.files file v f = fs.files f :=
  update_of_ne (h.mem_erase_iff.mp hf).1 ..

end

namespace Handles.Inv

variable {s s' : Handles} {file inode : Nat} {fs' : FileSys}

section

variable (h : s.Inv) {new : Option Nat}
include h

section

variable (hfile : file ∈ s.files)
include hfile

/-- The counters with one of the files in front. -/
theorem front :
    Balanced s.fs ((s.fs.files file).inode :: (fileRefs s.fs (s.files.erase file) ++ s.owned))
      ((if (s.fs.files file).denyWrite then [(s.fs.files file).inode] else []) ++
        fileDenials s.fs (s.files.erase file)) := by
  have hperm := perm_cons_erase hfile
  rw [← fileDenials_cons]
  exact h.balanced.perm ((perm_fileRefs s.fs hperm).append_right _) (perm_fileDenials s.fs hperm)

theorem inode_mem : (s.fs.files file).inode ∈ s.fs.openInodes :=
  (h.balanced.mem _).mpr (mem_append_left _ (mem_map_of_mem hfile))

/-- One file is changed and keeps its inode, and the counters follow. -/
theorem setFile {v : File}
    (hinode : v.inode = (s.fs.files file).inode)
    (hfiles : fs'.files = update s.fs.files file v) (hnext : s.fs.next ≤ fs'.next)
    (hb : Balanced fs'
      ((s.fs.files file).inode :: (fileRefs s.fs (s.files.erase file) ++ s.owned))
      ((if v.denyWrite then [(s.fs.files file).inode] else []) ++
        fileDenials s.fs (s.files.erase file))) :
    Inv { s with fs := fs' } := by
  have hself : fs'.files file = v := by rw [hfiles, update_self]
  have hother : ∀ f ∈ s.files.erase file, fs'.files f = s.fs.files f := fun f hf => by
    rw [hfiles, files_of_mem_erase h.nodup hf]
  obtain ⟨hrefs, hdenials⟩ := lists_congr hother
  have hperm := (perm_cons_erase hfile).symm
  refine ⟨h.nodup, fun f hf => lt_of_lt_of_le (h.lt f hf) hnext, ?_⟩
  rw [← hrefs, ← hdenials, ← hinode, ← hself, ← fileDenials_cons] at hb
  exact hb.perm ((perm_fileRefs fs' hperm).append_right _) (perm_fileDenials fs' hperm)

/-- **`file_deny_write`** does not fail. -/
theorem fileDenyWrite :
    ∃ fs', fileDenyWrite s.fs file = .ok fs' ∧ Inv { s with fs := fs' } := by
  have hfront := h.front hfile
  unfold Fs.fileDenyWrite
  cases hflag : (s.fs.files file).denyWrite with
  | true => exact ⟨s.fs, rfl, h⟩
  | false =>
    rw [hflag] at hfront
    have hset : Balanced (s.fs.setFile file { s.fs.files file with denyWrite := true }) _ _ :=
      hfront.congr rfl rfl le_rfl
    obtain ⟨fs', hrun, hb, hfiles, hnext⟩ := hset.inodeDenyWrite (by
      rw [count_cons_self]
      exact Nat.lt_succ_of_le (count_fileDenials_le ..))
    exact ⟨fs', hrun, h.setFile hfile (v := { s.fs.files file with denyWrite := true }) rfl
      hfiles hnext hb⟩

/-- The counters after **`file_allow_write`**, which does not fail. -/
theorem allowed :
    ∃ fs', fileAllowWrite s.fs file = .ok fs' ∧
      fs'.files = update s.fs.files file { s.fs.files file with denyWrite := false } ∧
      s.fs.next ≤ fs'.next ∧
      Balanced fs' ((s.fs.files file).inode :: (fileRefs s.fs (s.files.erase file) ++ s.owned))
        (fileDenials s.fs (s.files.erase file)) := by
  have hfront := h.front hfile
  unfold fileAllowWrite
  cases hflag : (s.fs.files file).denyWrite with
  | true =>
    rw [hflag] at hfront
    have hset : Balanced (s.fs.setFile file { s.fs.files file with denyWrite := false }) _ _ :=
      hfront.congr rfl rfl le_rfl
    obtain ⟨fs', hrun, hb, hfiles, hnext⟩ := hset.inodeAllowWrite
    exact ⟨fs', hrun, hfiles, hnext, hb⟩
  | false =>
    rw [hflag] at hfront
    refine ⟨s.fs, rfl, ?_, le_rfl, hfront⟩
    rw [← hflag, update_eq_self]

theorem fileAllowWrite :
    ∃ fs', fileAllowWrite s.fs file = .ok fs' ∧ Inv { s with fs := fs' } := by
  obtain ⟨fs', hrun, hfiles, hnext, hb⟩ := h.allowed hfile
  exact ⟨fs', hrun, h.setFile hfile (v := { s.fs.files file with denyWrite := false }) rfl
    hfiles hnext hb⟩

omit hfile in
/-- Everything about the files is as before, and the counters follow the other references. -/
theorem keepsFiles (hkeeps : KeepsFiles s.fs fs') {owned : List Nat}
    (hb : Balanced fs' (fileRefs s.fs s.files ++ owned) (fileDenials s.fs s.files)) :
    Inv ⟨fs', s.files, owned⟩ := by
  obtain ⟨hfiles, hnext⟩ := hkeeps
  have hsame : ∀ f ∈ s.files, fs'.files f = s.fs.files f := fun f _ => by rw [hfiles]
  obtain ⟨hrefs, hdenials⟩ := lists_congr hsame
  rw [← hrefs, ← hdenials] at hb
  exact ⟨h.nodup, fun f hf => lt_of_lt_of_le (h.lt f hf) hnext, hb⟩

/-- **`file_close`** takes its file away, with the reference and the denial of the file. -/
theorem fileClose {sectorMap dataMap : Bool}
    (hrun : fileClose s.fs file sectorMap dataMap = .ok fs') :
    Inv ⟨fs', s.files.erase file, s.owned⟩ ∧
      ∀ f ∈ s.files.erase file, fs'.files f = s.fs.files f := by
  obtain ⟨fs₁, hrun₁, hfiles, hnext, hb⟩ := h.allowed hfile
  unfold Fs.fileClose at hrun
  rw [hrun₁, ok_bind] at hrun
  have hinode : (fs₁.files file).inode = (s.fs.files file).inode := by
    rw [hfiles, update_self]
  rw [hinode] at hrun
  obtain ⟨hb', hfiles', hnext'⟩ := hb.inodeClose (count_fileDenials_le ..) hrun
  have hother : ∀ f ∈ s.files.erase file, fs'.files f = s.fs.files f := fun f hf => by
    rw [hfiles', hfiles, files_of_mem_erase h.nodup hf]
  obtain ⟨hrefs, hdenials⟩ := lists_congr hother
  rw [← hrefs, ← hdenials] at hb'
  refine ⟨⟨h.nodup.erase _, fun f hf => ?_, hb'⟩, hother⟩
  exact lt_of_lt_of_le (h.lt f (mem_of_mem_erase hf)) (le_trans hnext hnext')

end

/-- **`file_open`** makes a handle of a reference to an inode, or closes it. -/
theorem fileOpen {owned : List Nat} {memory : Memory} (hown : s.owned.Perm (inode :: owned))
    (hrun : fileOpen s.fs (some inode) memory = .ok (fs', new)) :
    Inv ⟨fs', new.toList ++ s.files, owned⟩ ∧ (new = none → KeepsFiles s.fs fs') := by
  have hb := h.balanced.perm ((Perm.append_left _ hown).trans perm_middle) .rfl
  unfold Fs.fileOpen at hrun
  dsimp only at hrun
  split at hrun
  · cases hrun
    have hne : ∀ f ∈ s.files, f ≠ s.fs.next := fun f hf => ne_of_lt (h.lt f hf)
    obtain ⟨fs₁, hfs₁⟩ : ∃ fs₁, fs₁ = s.fs.pushFile ⟨inode, 0, false⟩ := ⟨_, rfl⟩
    rw [← hfs₁]
    have hself : fs₁.files s.fs.next = ⟨inode, 0, false⟩ := hfs₁ ▸ update_self ..
    have hother : ∀ f ∈ s.files, fs₁.files f = s.fs.files f := fun f hf =>
      hfs₁ ▸ update_of_ne (hne f hf) ..
    obtain ⟨hrefs, hdenials⟩ := lists_congr hother
    refine ⟨⟨nodup_cons.mpr ⟨fun hmem => hne _ hmem rfl, h.nodup⟩, fun f hf => ?_, ?_⟩, nofun⟩
    · rw [hfs₁]
      change f < s.fs.next + 1
      rcases mem_cons.mp hf with rfl | hf
      · exact Nat.lt_succ_self _
      · exact Nat.lt_succ_of_lt (h.lt f hf)
    · have hpush : Balanced fs₁ _ _ := 
        hb.congr (hfs₁ ▸ rfl) (hfs₁ ▸ rfl) (hfs₁ ▸ Nat.le_succ _)
      rw [← hrefs, ← hdenials] at hpush
      change Balanced fs₁ (fileRefs fs₁ (s.fs.next :: s.files) ++ owned)
        (fileDenials fs₁ (s.fs.next :: s.files))
      rw [fileDenials_cons, fileRefs, map_cons, hself]
      exact hpush
  · obtain ⟨s₁, hrun₁, hrun⟩ := bind_eq_ok hrun
    cases hrun
    obtain ⟨hb', hkeeps⟩ := hb.inodeClose (count_fileDenials_le ..) hrun₁
    exact ⟨h.keepsFiles hkeeps hb', fun _ => hkeeps⟩

theorem inodeOpen {sector : Nat} {memory : Bool}
    (hrun : inodeOpen s.fs sector memory = .ok (fs', new)) :
    Inv ⟨fs', s.files, new.toList ++ s.owned⟩ ∧ KeepsFiles s.fs fs' := by
  obtain ⟨hb, hkeeps⟩ := h.balanced.inodeOpen hrun
  refine ⟨h.keepsFiles hkeeps (hb.perm ?_ .rfl), hkeeps⟩
  rw [← append_assoc, ← append_assoc]
  exact perm_append_comm.append_right _

theorem inodeClose {owned : List Nat} {sectorMap dataMap : Bool}
    (hown : s.owned.Perm (inode :: owned))
    (hrun : inodeClose s.fs inode sectorMap dataMap = .ok fs') :
    Inv ⟨fs', s.files, owned⟩ ∧ KeepsFiles s.fs fs' := by
  have hb := h.balanced.perm ((Perm.append_left _ hown).trans perm_middle) .rfl
  obtain ⟨hb', hkeeps⟩ := hb.inodeClose (count_fileDenials_le ..) hrun
  exact ⟨h.keepsFiles hkeeps hb', hkeeps⟩

theorem inodeRemove (hown : inode ∈ s.owned) :
    Inv { s with fs := inodeRemove s.fs inode } := by
  have hkeeps : KeepsFiles s.fs (Fs.inodeRemove s.fs inode) := ⟨rfl, le_rfl⟩
  exact h.keepsFiles hkeeps (h.balanced.inodeRemove (mem_append_right _ hown))

section

variable (hfile : file ∈ s.files)
include hfile

theorem transfer (pos : Nat) (st : Store) :
    Inv { s with fs := (s.fs.withStore st).setFile file { s.fs.files file with pos } } :=
  h.setFile hfile (v := { s.fs.files file with pos }) rfl rfl le_rfl
    ((h.front hfile).congr rfl rfl le_rfl)

omit hfile in
/-- **The counters count, after every operation.** -/
theorem step {op : FileOp} (hlegal : s.Legal op) (hrun : s.exec op = .ok s') : s'.Inv := by
  cases op with
  | inodeOpen sector memory =>
    obtain ⟨⟨fs', inode⟩, hrun₁, hrun⟩ := bind_eq_ok hrun
    cases hrun
    exact (h.inodeOpen hrun₁).1
  | inodeClose inode sectorMap dataMap =>
    obtain ⟨fs', hrun₁, hrun⟩ := bind_eq_ok hrun
    cases hrun
    exact (h.inodeClose (perm_cons_erase hlegal) hrun₁).1
  | inodeRemove inode =>
    cases hrun
    exact h.inodeRemove hlegal
  | fileOpen inode memory =>
    obtain ⟨⟨fs', file⟩, hrun₁, hrun⟩ := bind_eq_ok hrun
    cases hrun
    exact (h.fileOpen (perm_cons_erase hlegal) hrun₁).1
  | fileReopen file memory =>
    obtain ⟨⟨fs', new⟩, hrun₁, hrun⟩ := bind_eq_ok hrun
    cases hrun
    -- `inode_reopen` first: its reference is for `file_open`
    have hmem : (s.fs.files file).inode ∈ fileRefs s.fs s.files ++ s.owned :=
      mem_append_left _ (mem_map_of_mem hlegal)
    have hkeeps : KeepsFiles s.fs (inodeReopen s.fs (s.fs.files file).inode) :=
      ⟨rfl, le_rfl⟩
    have hopened : Inv ⟨inodeReopen s.fs (s.fs.files file).inode, s.files,
        (s.fs.files file).inode :: s.owned⟩ :=
      h.keepsFiles hkeeps ((h.balanced.inodeReopen hmem).perm perm_middle.symm .rfl)
    exact (hopened.fileOpen .rfl hrun₁).1
  | fileDenyWrite file =>
    obtain ⟨fs', hrun₁, hinv⟩ := h.fileDenyWrite hlegal
    rw [exec, hrun₁] at hrun
    cases hrun
    exact hinv
  | fileAllowWrite file =>
    obtain ⟨fs', hrun₁, hinv⟩ := h.fileAllowWrite hlegal
    rw [exec, hrun₁] at hrun
    cases hrun
    exact hinv
  | fileClose file sectorMap dataMap =>
    obtain ⟨fs', hrun₁, hrun⟩ := bind_eq_ok hrun
    cases hrun
    exact (h.fileClose hlegal hrun₁).1
  | transfer file pos st =>
    cases hrun
    exact h.transfer hlegal pos st

theorem fileRead {size : OffT} {memory : Bool}
    {bs : List UInt8} (hrun : fileRead s.fs file size memory = .ok (fs', bs)) :
    Inv { s with fs := fs' } := by
  obtain ⟨bs', -, hrun⟩ := bind_eq_ok hrun
  cases hrun
  exact h.transfer hfile _ s.fs.toStore

theorem fileWrite {buffer : List UInt8} {memory : Bool}
    {n : Nat} (hrun : fileWrite s.fs file buffer memory = .ok (fs', n)) :
    Inv { s with fs := fs' } := by
  obtain ⟨⟨dev, n'⟩, -, hrun⟩ := bind_eq_ok hrun
  cases hrun
  exact h.transfer hfile _ ⟨dev, s.fs.freeMap⟩

theorem fileSeek {newPos : OffT}
    (hrun : fileSeek s.fs file newPos = .ok fs') : Inv { s with fs := fs' } := by
  unfold Fs.fileSeek at hrun
  split at hrun
  · cases hrun
    exact h.transfer hfile _ s.fs.toStore
  · cases hrun

end

/-! ### operations on names -/

theorem withStore (st : Store) : Inv { s with fs := s.fs.withStore st } := by
  have hkeeps : KeepsFiles s.fs (s.fs.withStore st) := ⟨rfl, le_rfl⟩
  exact h.keepsFiles hkeeps (h.balanced.congr rfl rfl le_rfl)

theorem dirOpenRoot {memory : Memory} {dir : Option Nat}
    (hrun : dirOpenRoot s.fs memory = .ok (fs', dir)) :
    Inv ⟨fs', s.files, dir.toList ++ s.owned⟩ ∧ KeepsFiles s.fs fs' := by
  obtain ⟨⟨fs₁, inode⟩, hrun₁, hrun⟩ := bind_eq_ok hrun
  have hopen := h.inodeOpen hrun₁
  cases inode with
  | none =>
    cases hrun
    exact hopen
  | some inode =>
    dsimp only at hrun
    split at hrun
    · cases hrun
      exact hopen
    · obtain ⟨fs₂, hrun₂, hrun⟩ := bind_eq_ok hrun
      cases hrun
      obtain ⟨hclosed, hkeeps⟩ := hopen.1.inodeClose .rfl hrun₂
      exact ⟨hclosed, hopen.2.trans hkeeps⟩

theorem dirLookup {dir : Nat} {name : CString} {memory : Memory}
    (hrun : dirLookup s.fs dir name memory = .ok (fs', new)) :
    Inv ⟨fs', s.files, new.toList ++ s.owned⟩ ∧ KeepsFiles s.fs fs' := by
  obtain ⟨found, hrun₁, hrun⟩ := bind_eq_ok hrun
  split at hrun
  · exact h.inodeOpen hrun
  · cases hrun
    exact ⟨h, .refl _⟩

/-- **`filesys_open`** opens a file or leaves the counters alone. -/
theorem filesysOpen {name : CString} {memory : Memory}
    (hrun : filesysOpen s.fs name memory = .ok (fs', new)) :
    Inv ⟨fs', new.toList ++ s.files, s.owned⟩ ∧ (new = none → KeepsFiles s.fs fs') := by
  obtain ⟨⟨fs₁, dir⟩, hrun₁, hrun⟩ := bind_eq_ok hrun
  obtain ⟨hdir, hkeeps₁⟩ := h.dirOpenRoot hrun₁
  cases dir with
  | none =>
    cases hrun
    exact ⟨hdir, fun _ => hkeeps₁⟩
  | some dir =>
    obtain ⟨⟨fs₂, inode⟩, hrun₂, hrun⟩ := bind_eq_ok hrun
    obtain ⟨fs₃, hrun₃, hrun⟩ := bind_eq_ok hrun
    obtain ⟨hlookup, hkeeps₂⟩ := hdir.dirLookup hrun₂
    obtain ⟨hclosed, hkeeps₃⟩ := hlookup.inodeClose perm_middle hrun₃
    have hkeeps := (hkeeps₁.trans hkeeps₂).trans hkeeps₃
    cases inode with
    | none =>
      cases hrun
      exact ⟨hclosed, fun _ => hkeeps⟩
    | some inode =>
      obtain ⟨hopened, hnone⟩ := hclosed.fileOpen .rfl hrun
      exact ⟨hopened, fun hnew => hkeeps.trans (hnone hnew)⟩

end

end Handles.Inv

/-- What `filesys_create` does with the sector after the directory has been written to. -/
theorem releaseFailed_store {s s' : FileSys} {sector : Nat} {added success : Bool} {memory : Bool}
    (hrun : (if (!added && sector ≠ 0) = true then do
        let s ← freeMapRelease s sector 1 memory
        return (s, false)
      else
        return (s, added)) = Except.ok (s', success)) :
    ∃ st, s' = s.withStore st := by
  split at hrun
  · obtain ⟨s₁, hrun₁, hrun⟩ := bind_eq_ok hrun
    obtain ⟨st, hst, heq⟩ := bind_eq_ok hrun₁
    cases heq
    cases hrun
    exact ⟨st, rfl⟩
  · cases hrun
    exact ⟨s.toStore, rfl⟩

theorem createIn_store {s s' : FileSys} {dir : Nat} {name : CString} {initialSize : OffT}
    {memory : Memory} {success : Bool}
    (hrun : createIn s dir name initialSize memory = .ok (s', success)) :
    ∃ st, s' = s.withStore st := by
  obtain ⟨⟨s₁, sector⟩, hrun₁, hrun⟩ := bind_eq_ok hrun
  obtain ⟨⟨st₁, sector₁⟩, hst₁, heq₁⟩ := bind_eq_ok hrun₁
  cases heq₁
  cases sector with
  | none =>
    cases hrun
    exact ⟨st₁, rfl⟩
  | some sector =>
    obtain ⟨⟨s₂, created⟩, hrun₂, hrun⟩ := bind_eq_ok hrun
    obtain ⟨⟨st₂, created₂⟩, hst₂, heq₂⟩ := bind_eq_ok hrun₂
    cases heq₂
    dsimp only at hrun
    split at hrun
    · obtain ⟨⟨dev, added⟩, -, hrun⟩ := bind_eq_ok hrun
      obtain ⟨st, rfl⟩ := releaseFailed_store hrun
      exact ⟨st, rfl⟩
    · obtain ⟨st, rfl⟩ := releaseFailed_store hrun
      exact ⟨st, rfl⟩

namespace Handles.Inv

variable {s : Handles} {fs' : FileSys} {name : CString} {memory : Memory} {success : Bool}

/-- **`filesys_create`** leaves the counters alone. -/
theorem filesysCreate (h : s.Inv) {initialSize : OffT}
    (hrun : filesysCreate s.fs name initialSize memory = .ok (fs', success)) :
    Inv { s with fs := fs' } := by
  obtain ⟨⟨fs₁, dir⟩, hrun₁, hrun⟩ := bind_eq_ok hrun
  obtain ⟨hdir, -⟩ := h.dirOpenRoot hrun₁
  cases dir with
  | none =>
    cases hrun
    exact hdir
  | some dir =>
    obtain ⟨⟨fs₂, success₂⟩, hrun₂, hrun⟩ := bind_eq_ok hrun
    obtain ⟨fs₃, hrun₃, hrun⟩ := bind_eq_ok hrun
    cases hrun
    obtain ⟨st, rfl⟩ := createIn_store hrun₂
    exact ((hdir.withStore st).inodeClose .rfl hrun₃).1

theorem dirRemove (h : s.Inv) {dir : Nat}
    (hrun : dirRemove s.fs dir name memory = .ok (fs', success)) : Inv { s with fs := fs' } := by
  obtain ⟨found, -, hrun⟩ := bind_eq_ok hrun
  split at hrun
  · cases hrun
    exact h
  · obtain ⟨⟨fs₁, inode⟩, hrun₁, hrun⟩ := bind_eq_ok hrun
    obtain ⟨hopen, -⟩ := h.inodeOpen hrun₁
    cases inode with
    | none =>
      cases hrun
      exact hopen
    | some inode =>
      obtain ⟨⟨dev, written⟩, -, hrun⟩ := bind_eq_ok hrun
      have hdev := hopen.withStore ⟨dev, fs₁.freeMap⟩
      dsimp only at hrun
      split at hrun
      · obtain ⟨fs₂, hrun₂, hrun⟩ := bind_eq_ok hrun
        cases hrun
        exact ((hdev.inodeRemove mem_cons_self).inodeClose .rfl hrun₂).1
      · obtain ⟨fs₂, hrun₂, hrun⟩ := bind_eq_ok hrun
        cases hrun
        exact (hdev.inodeClose .rfl hrun₂).1

/-- **`filesys_remove`** leaves the counters alone. -/
theorem filesysRemove (h : s.Inv)
    (hrun : filesysRemove s.fs name memory = .ok (fs', success)) : Inv { s with fs := fs' } := by
  obtain ⟨⟨fs₁, dir⟩, hrun₁, hrun⟩ := bind_eq_ok hrun
  obtain ⟨hdir, -⟩ := h.dirOpenRoot hrun₁
  cases dir with
  | none =>
    cases hrun
    exact hdir
  | some dir =>
    obtain ⟨⟨fs₂, success₂⟩, hrun₂, hrun⟩ := bind_eq_ok hrun
    obtain ⟨fs₃, hrun₃, hrun⟩ := bind_eq_ok hrun
    cases hrun
    exact ((hdir.dirRemove hrun₂).inodeClose .rfl hrun₃).1

end Handles.Inv

/-! ## closing the last file -/

section

variable {h h' : Handles}

theorem freeMapRelease_bits {fs fs' : FileSys} {sector cnt : Nat} {memory : Bool}
    (hrun : Fs.freeMapRelease fs sector cnt memory = .ok fs') :
    (∀ k, sector ≤ k → k < sector + cnt → fs'.freeMap.bits k = false) ∧
      ∀ k, fs.freeMap.bits k = false → fs'.freeMap.bits k = false := by
  obtain ⟨st, hst, heq⟩ := bind_eq_ok hrun
  cases heq
  dsimp only
  rw [Store.freeMap_of_freeMapRelease hst]
  exact ⟨fun k hle hlt => FirstFit.fill_of_mem hle hlt, fun k hk => FirstFit.fill_of_eq hk⟩

theorem inodeClose_frees {fs fs' : FileSys} {inode : Nat} {sectorMap dataMap : Bool}
    (hcnt : (fs.inodes inode).openCnt = 1) (hremoved : (fs.inodes inode).removed = true)
    (hrun : inodeClose fs inode sectorMap dataMap = .ok fs') (k : Nat)
    (hk : k = (fs.inodes inode).sector ∨ (fs.inodes inode).data.Covers k) :
    fs'.freeMap.bits k = false := by
  have hzero : (fs.inodes inode).closed.openCnt = 0 := by
    change (fs.inodes inode).openCnt - 1 = 0
    rw [hcnt]
    rfl
  unfold inodeClose at hrun
  rw [if_pos hzero, if_pos hremoved] at hrun
  obtain ⟨fs₁, hrun₁, hrun₂⟩ := bind_eq_ok hrun
  obtain ⟨hfirst, -⟩ := freeMapRelease_bits hrun₁
  obtain ⟨hsecond, hkeep⟩ := freeMapRelease_bits hrun₂
  rcases hk with rfl | hk
  · exact hkeep _ (hfirst _ le_rfl (Nat.lt_succ_self _))
  · exact hsecond k hk.1 hk.2

theorem fileAllowWrite_inodes {fs fs' : FileSys} {file : Nat}
    (hrun : fileAllowWrite fs file = .ok fs') (a : Nat) :
    (fs'.inodes a).sector = (fs.inodes a).sector ∧ (fs'.inodes a).removed = (fs.inodes a).removed ∧
      (fs'.inodes a).data = (fs.inodes a).data := by
  unfold fileAllowWrite inodeAllowWrite at hrun
  dsimp only at hrun
  split at hrun
  · split at hrun
    · cases hrun
      refine (forall_update_iff fs.inodes fun a (i : Inode) => i.sector = (fs.inodes a).sector ∧
        i.removed = (fs.inodes a).removed ∧ i.data = (fs.inodes a).data).mpr ⟨?_, ?_⟩ a
      · exact ⟨rfl, rfl, rfl⟩
      · exact fun _ _ => ⟨rfl, rfl, rfl⟩
    · cases hrun
  · cases hrun
    exact ⟨rfl, rfl, rfl⟩

/-- **The last file of a removed inode frees its sectors when it is closed.** -/
theorem fileClose_frees {f : Nat} {sectorMap dataMap : Bool} (hinv : h.Inv) (hf : f ∈ h.files)
    (hlast : (fileRefs h.fs h.files ++ h.owned).count (h.fs.files f).inode = 1)
    (hremoved : (h.fs.inodes (h.fs.files f).inode).removed = true)
    (hrun : h.exec (.fileClose f sectorMap dataMap) = .ok h') (k : Nat)
    (hk : k = (h.fs.inodes (h.fs.files f).inode).sector ∨
      (h.fs.inodes (h.fs.files f).inode).data.Covers k) : h'.fs.freeMap.bits k = false := by
  obtain ⟨fs', hclose, heq⟩ := bind_eq_ok hrun
  cases heq
  obtain ⟨fs₁, hallow, hfiles, -, hbalanced⟩ := hinv.allowed hf
  obtain ⟨hsector, hremoved₁, hdata⟩ := fileAllowWrite_inodes hallow (h.fs.files f).inode
  unfold fileClose at hclose
  rw [hallow, ok_bind, hfiles, update_self] at hclose
  have hopen := (hbalanced.mem (h.fs.files f).inode).mpr mem_cons_self
  have hperm : (fileRefs h.fs h.files ++ h.owned).Perm
      ((h.fs.files f).inode :: (fileRefs h.fs (h.files.erase f) ++ h.owned)) :=
    (perm_fileRefs h.fs (perm_cons_erase hf)).append_right _
  have hcnt : (fs₁.inodes (h.fs.files f).inode).openCnt = 1 := by
    rw [hbalanced.openCnt _ hopen, ← hperm.count_eq, hlast]
    rfl
  refine inodeClose_frees hcnt (hremoved₁.trans hremoved) hclose k ?_
  rwa [hsector, hdata]

end

theorem fileMachine_inv {s : Handles} (h : fileMachine.Reach s) : s.Inv := by
  refine h.invariant ?_ fun s op s' hinv _ hstep => ?_
  · rintro ⟨fs, _, _⟩ ⟨hopen, rfl, rfl⟩
    dsimp only at hopen
    refine ⟨nodup_nil, fun _ hf => absurd hf not_mem_nil, ?_⟩
    refine ⟨?_, ?_, ?_, ?_, ?_, fun _ => le_rfl⟩
    all_goals rw [hopen]
    · exact nodup_nil
    · exact fun _ hi => absurd hi not_mem_nil
    · exact fun _ => .rfl
    · exact fun _ hi => absurd hi not_mem_nil
    · exact fun _ hi => absurd hi not_mem_nil
  · change (if s.Legal op then (s.exec op).toOption else none) = some s' at hstep
    split at hstep
    next hlegal => exact hinv.step hlegal (eq_ok_of_toOption hstep)
    next => cases hstep

/-- The number of open handles of an inode whose `deny_write` flag is set. -/
def Handles.denials (s : Handles) (inode : Nat) : Nat :=
  s.files.countP fun file => (s.fs.files file).inode = inode ∧ (s.fs.files file).denyWrite = true

theorem Handles.count_fileDenials (s : Handles) (inode : Nat) :
    (fileDenials s.fs s.files).count inode = s.denials inode := by
  unfold fileDenials fileRefs denials
  rw [count_eq_countP, countP_map, countP_filter]
  refine countP_congr fun file _ => ?_
  simp

/-- **The write denials balance**: in every reachable state `deny_write_cnt` is the number of open
handles of the inode with a denial, neither assertion fails, and a handle that is closed takes its
own denial away and no other. -/
theorem denials_balance {s : Handles} (h : fileMachine.Reach s) :
    (∀ file ∈ s.files, (s.fs.files file).inode ∈ s.fs.openInodes) ∧
    (∀ inode ∈ s.fs.openInodes,
      (s.fs.inodes inode).denyWriteCnt = s.denials inode ∧
        (s.fs.inodes inode).denyWriteCnt ≤ (s.fs.inodes inode).openCnt) ∧
    (∀ file ∈ s.files,
      (∃ fs', fileDenyWrite s.fs file = .ok fs') ∧ ∃ fs', fileAllowWrite s.fs file = .ok fs') ∧
    ∀ file ∈ s.files, ∀ sectorMap dataMap s',
      s.exec (.fileClose file sectorMap dataMap) = .ok s' →
        (∀ other ∈ s'.files, other ≠ file ∧ s'.fs.files other = s.fs.files other) ∧
        ∀ inode ∈ s'.fs.openInodes, (s'.fs.inodes inode).denyWriteCnt =
          (s.fs.inodes inode).denyWriteCnt -
            if (s.fs.files file).inode = inode ∧ (s.fs.files file).denyWrite = true then 1
            else 0 := by
  have hinv := fileMachine_inv h
  have hcount : ∀ inode ∈ s.fs.openInodes,
      (s.fs.inodes inode).denyWriteCnt = s.denials inode := fun inode hi => by
    rw [hinv.balanced.denyWriteCnt inode hi, s.count_fileDenials]
  refine ⟨fun file hfile => hinv.inode_mem hfile, fun inode hi => ⟨hcount inode hi, ?_⟩,
    fun file hfile => ⟨?_, ?_⟩, fun file hfile sectorMap dataMap s' hrun => ?_⟩
  · rw [hinv.balanced.denyWriteCnt inode hi, hinv.balanced.openCnt inode hi]
    exact Int.ofNat_le.mpr (hinv.balanced.le inode)
  · obtain ⟨fs', hrun, -⟩ := hinv.fileDenyWrite hfile
    exact ⟨fs', hrun⟩
  · obtain ⟨fs', hrun, -⟩ := hinv.fileAllowWrite hfile
    exact ⟨fs', hrun⟩
  · obtain ⟨fs', hrun₁, hrun⟩ := bind_eq_ok hrun
    cases hrun
    obtain ⟨hinv', hother⟩ := hinv.fileClose hfile hrun₁
    refine ⟨fun other ho => ⟨(hinv.nodup.mem_erase_iff.mp ho).1, hother other ho⟩,
      fun inode hi => ?_⟩
    have hfront := hinv.front hfile
    obtain ⟨hrefs, hdenials⟩ := lists_congr hother
    have hmem : inode ∈ s.fs.openInodes := by
      have hrest := (hinv'.balanced.mem inode).mp hi
      rw [hrefs] at hrest
      exact (hfront.mem inode).mpr (mem_cons_of_mem _ hrest)
    have hafter := hinv'.balanced.denyWriteCnt inode hi
    rw [hdenials] at hafter
    rw [hafter, hfront.denyWriteCnt inode hmem, count_append]
    cases (s.fs.files file).denyWrite with
    | false => simp
    | true =>
      by_cases heq : (s.fs.files file).inode = inode
      · simp [heq]
      · simp [heq]

/-- No inode is open, on a device of four sectors. -/
def noHandles : Handles :=
  ⟨⟨⟨⟨4, fun _ => 0⟩, ⟨4, fun _ => false⟩⟩, none, fun _ => ⟨0, 0, false, 0, ⟨0, 0⟩⟩, [],
    fun _ => ⟨0, 0, false⟩, 0⟩, [], []⟩

/-- Two handles of one inode, one of them denied twice. -/
theorem denials_balance_two_handles :
    ∃ s, fileMachine.Reach s ∧ s.files = [2, 1] ∧ s.fs.openInodes = [0] ∧
      (s.fs.inodes 0).denyWriteCnt = 2 ∧ s.denials 0 = 2 := by
  let memory := Memory.plenty ⟨0, [], false⟩
  have hinit : fileMachine.init noHandles := ⟨rfl, rfl, rfl⟩
  obtain ⟨s, -, hreach, hfiles, hopen, hcnt⟩ := Machine.exists_reach_of_runFrom hinit
    [.inodeOpen 3 true, .fileOpen 0 memory, .fileReopen 1 memory, .fileDenyWrite 1,
      .fileDenyWrite 1, .fileDenyWrite 2]
    (fun s => s.files = [2, 1] ∧ s.fs.openInodes = [0] ∧ (s.fs.inodes 0).denyWriteCnt = 2)
    (by decide +kernel)
  have hmem : 0 ∈ s.fs.openInodes := by
    rw [hopen]
    exact mem_singleton_self _
  have hbalance := ((denials_balance hreach).2.1 0 hmem).1
  exact ⟨s, hreach, hfiles, hopen, hcnt, by omega⟩

end Pintos.Fs

