import OslabRiscv.Boot.Image

/-!
# The table survives the image

The writer keeps one address, the length of the image so far, and splits it into
a sector and an offset at both ends of every program; the reader splits the
address of the table.  Both halves are joined again here: the bytes between the
two ends of an entry are those the program's headers name, and the kernel finds
the entries that were written.
-/

namespace Boot

open LittleEndian

/-! ## Well-formed files -/

/-- The headers of the file can be read, and what they load lies inside the file. -/
def WellFormed (f : List UInt8) : Prop :=
  ∃ ehdr, readEhdr f = some ehdr ∧ ∀ ph < ehdr.phnum, ∃ phdr, readPhdr f ehdr ph = some phdr ∧
    (phdr.type = ptLoad → phdr.offset + phdr.filesz ≤ f.length)

/-- The program headers of a file. -/
def headers (f : List UInt8) : List Phdr :=
  match readEhdr f with
  | some ehdr => (List.range ehdr.phnum).filterMap (readPhdr f ehdr)
  | none => []

/-- The bytes of the file a header loads. -/
def loaded (f : List UInt8) (ph : Phdr) : List UInt8 :=
  if ph.memsz ≠ 0 ∧ ph.type = ptLoad then (f.drop ph.offset).take ph.filesz else []

/-- What of a file belongs into the image, in the order of its headers. -/
def contents (f : List UInt8) : List UInt8 := (headers f).flatMap (loaded f)

/-- What the tool copies is what the header names. -/
theorem segment_eq {f : List UInt8} {ph : Phdr}
    (h : ph.type = ptLoad → ph.offset + ph.filesz ≤ f.length) : segment f ph = loaded f ph := by
  by_cases hload : ph.memsz ≠ 0 ∧ ph.type = ptLoad
  · have hlen := h hload.2
    rw [segment, loaded, if_pos hload, if_pos hload]
    apply List.ext_getElem
    · simp only [List.length_map, List.length_range, List.length_take, List.length_drop]
      omega
    · intro i h₁ h₂
      have hi : i < ph.filesz := by simpa using h₁
      have hin : ph.offset + i < f.length := by omega
      simp only [List.getElem_map, List.getElem_range, List.getElem_take, List.getElem_drop]
      exact (List.getElem_eq_getD 0xff).symm
  · rw [segment, loaded, if_neg hload, if_neg hload]

/-! ## Entries -/

/-- Where the bytes of a program begin and end in the image. -/
def TaskInfo.start (t : TaskInfo) : Nat := t.beginBlock * sectorSize + t.beginOffset
def TaskInfo.stop (t : TaskInfo) : Nat := t.endBlock * sectorSize + t.endOffset

/-- The fields of an entry fit into their bytes. -/
structure TaskInfo.Fits (t : TaskInfo) : Prop where
  beginBlock : t.beginBlock < 256 ^ 2
  endBlock : t.endBlock < 256 ^ 2
  beginOffset : t.beginOffset < 256 ^ 4
  endOffset : t.endOffset < 256 ^ 4
  memsz : t.memsz < 256 ^ 4
  entryAddr : t.entryAddr < 256 ^ 8
  name : t.name.length = taskNameLen

/-- An entry of zeros fits. -/
theorem TaskInfo.zero_fits : TaskInfo.zero.Fits := by
  constructor <;> decide

/-- An entry takes its size in bytes. -/
theorem TaskInfo.Fits.length_encode {t : TaskInfo} (h : t.Fits) :
    t.encode.length = taskInfoSize := by
  simp only [TaskInfo.encode, List.length_append, length_bytes, List.length_replicate, h.name,
    taskNameLen, taskInfoSize]

/-- The field that lies between the bytes `a` and `c`. -/
theorem field_append {a c : List UInt8} {n v : Nat} (h : v < 256 ^ n) :
    field (a ++ (bytes n v ++ c)) a.length n = v := by
  rw [field, List.drop_left, List.take_left' (length_bytes n v), value_bytes_of_lt h]

/-- An entry is read back from its bytes. -/
theorem decode_encode {t : TaskInfo} (h : t.Fits) : decode t.encode = t := by
  obtain ⟨beginBlock, endBlock, beginOffset, endOffset, memsz, entryAddr, name⟩ := t
  obtain ⟨h₁, h₂, h₃, h₄, h₅, h₆, h₇⟩ := h
  simp only at h₁ h₂ h₃ h₄ h₅ h₆ h₇
  have f₁ := field_append (a := []) (c := bytes 2 endBlock ++ (bytes 4 beginOffset ++
    (bytes 4 endOffset ++ (bytes 4 memsz ++ (bytes 8 entryAddr ++ (name ++ List.replicate 6 0))))))
    h₁
  have f₂ := field_append (a := bytes 2 beginBlock) (c := bytes 4 beginOffset ++
    (bytes 4 endOffset ++ (bytes 4 memsz ++ (bytes 8 entryAddr ++ (name ++ List.replicate 6 0)))))
    h₂
  have f₃ := field_append (a := bytes 2 beginBlock ++ bytes 2 endBlock) (c :=
    bytes 4 endOffset ++ (bytes 4 memsz ++ (bytes 8 entryAddr ++ (name ++ List.replicate 6 0))))
    h₃
  have f₄ := field_append (a := bytes 2 beginBlock ++ bytes 2 endBlock ++ bytes 4 beginOffset)
    (c := bytes 4 memsz ++ (bytes 8 entryAddr ++ (name ++ List.replicate 6 0))) h₄
  have f₅ := field_append (a := bytes 2 beginBlock ++ bytes 2 endBlock ++ bytes 4 beginOffset ++
    bytes 4 endOffset) (c := bytes 8 entryAddr ++ (name ++ List.replicate 6 0)) h₅
  have f₆ := field_append (a := bytes 2 beginBlock ++ bytes 2 endBlock ++ bytes 4 beginOffset ++
    bytes 4 endOffset ++ bytes 4 memsz) (c := name ++ List.replicate 6 0) h₆
  simp only [List.append_assoc, List.nil_append, List.length_append, length_bytes,
    List.length_nil] at f₁ f₂ f₃ f₄ f₅ f₆
  have f₇ : ((bytes 2 beginBlock ++ bytes 2 endBlock ++ bytes 4 beginOffset ++ bytes 4 endOffset ++
      bytes 4 memsz ++ bytes 8 entryAddr ++ (name ++ List.replicate 6 0)).drop 24).take taskNameLen =
      name := by
    rw [List.drop_left' (by simp), List.take_left' h₇]
  simp only [List.append_assoc] at f₇
  simp only [decode, TaskInfo.encode, List.append_assoc, f₁, f₂, f₃, f₄, f₅, f₆, f₇]

/-! ## The loop over the headers -/

/-- The value of some bytes is bounded by their number. -/
theorem value_lt (bs : List UInt8) : value bs < 256 ^ bs.length := by
  induction bs with
  | nil => exact Nat.one_pos
  | cons b bs ih =>
      have hb : b.toNat < 256 := UInt8.toNat_lt b
      rw [value, List.length_cons, pow_succ]
      omega

/-- A file is on its way into the image: `bs` has been appended, no other entry has
changed, and its own only where it is loaded to. -/
structure Loads (fidx : Nat) (b b' : Build) (bs : List UInt8) : Prop where
  img : b'.img = b.img ++ bs
  phyaddr : b'.phyaddr = b.phyaddr + bs.length
  other : ∀ j, ¬ (2 ≤ fidx ∧ j = fidx - 2) → b'.taskinfo j = b.taskinfo j
  fits : (∀ j, (b.taskinfo j).Fits) → ∀ j, (b'.taskinfo j).Fits
  block : ∀ j, (b'.taskinfo j).beginBlock = (b.taskinfo j).beginBlock
  offset : ∀ j, (b'.taskinfo j).beginOffset = (b.taskinfo j).beginOffset

theorem Loads.refl {fidx : Nat} {b : Build} : Loads fidx b b [] :=
  ⟨(List.append_nil _).symm, rfl, fun _ _ => rfl, fun h => h, fun _ => rfl, fun _ => rfl⟩

theorem Loads.trans {fidx : Nat} {b b' b'' : Build} {bs cs : List UInt8} (h : Loads fidx b b' bs)
    (h' : Loads fidx b' b'' cs) : Loads fidx b b'' (bs ++ cs) where
  img := by rw [h'.img, h.img, List.append_assoc]
  phyaddr := by rw [h'.phyaddr, h.phyaddr, List.length_append, Nat.add_assoc]
  other j hj := (h'.other j hj).trans (h.other j hj)
  fits hf := h'.fits (h.fits hf)
  block j := (h'.block j).trans (h.block j)
  offset j := (h'.offset j).trans (h.offset j)

/-- An address of a program header has eight bytes. -/
theorem readPhdr_vaddr_lt {f : List UInt8} {ehdr : Ehdr} {ph : Nat} {phdr : Phdr}
    (h : readPhdr f ehdr ph = some phdr) : phdr.vaddr < 256 ^ 8 := by
  unfold readPhdr at h
  generalize phdrPos ehdr ph = pos at h
  simp only at h
  split at h
  · cases h
    refine (value_lt _).trans_le (Nat.pow_le_pow_right (by decide) ?_)
    exact (List.length_take_le _ _)
  · cases h

/-- One header. -/
theorem writePhdr_loads (fidx : Nat) (name : List UInt8) {f : List UInt8} {ehdr : Ehdr}
    {ph : Nat} {phdr : Phdr} (h : readPhdr f ehdr ph = some phdr)
    (hin : phdr.type = ptLoad → phdr.offset + phdr.filesz ≤ f.length) (b : Build) :
    ∃ b', writePhdr fidx name f ehdr b ph = some b' ∧ Loads fidx b b' (loaded f phdr) := by
  -- The segment and the size of the kernel leave the table alone.
  have hcopied : ∀ n, Loads fidx b { writeSegment f phdr b with nbytesKernel := n } (loaded f phdr) :=
    fun n => ⟨by rw [← segment_eq hin]; rfl, by rw [← segment_eq hin]; rfl, fun _ _ => rfl,
      fun hf => hf, fun _ => rfl, fun _ => rfl⟩
  obtain ⟨n, hn⟩ : ∃ n, (if name = main then
      { writeSegment f phdr b with
        nbytesKernel := Int.bmod ((writeSegment f phdr b).nbytesKernel + getFilesz phdr) (2 ^ 32) }
      else writeSegment f phdr b) = { writeSegment f phdr b with nbytesKernel := n } := by
    split
    · exact ⟨_, rfl⟩
    · exact ⟨b.nbytesKernel, rfl⟩
  unfold writePhdr
  rw [h]
  simp only [bind, Option.bind, hn]
  by_cases hown : 2 ≤ fidx ∧ phdr.type = ptLoad
  · rw [if_pos hown]
    refine ⟨_, rfl, ?_⟩
    have hset : ∀ b₁ : Build, Loads fidx b₁ (setTask (fidx - 2) (fun t =>
        { t with memsz := getMemsz phdr, entryAddr := phdr.vaddr }) b₁) [] := by
      intro b₁
      have hself (j : Nat) : ((setTask (fidx - 2) (fun t =>
          { t with memsz := getMemsz phdr, entryAddr := phdr.vaddr }) b₁).taskinfo j) =
          if j = fidx - 2 then
            { b₁.taskinfo j with memsz := getMemsz phdr, entryAddr := phdr.vaddr }
          else b₁.taskinfo j := by
        by_cases hj : j = fidx - 2
        · rw [if_pos hj, hj]
          exact Function.update_self _ _ _
        · rw [if_neg hj]
          exact Function.update_of_ne hj _ _
      refine ⟨(List.append_nil _).symm, rfl, fun j hj => ?_, fun hf j => ?_, fun j => ?_,
        fun j => ?_⟩
      · rw [hself, if_neg fun heq => hj ⟨hown.1, heq⟩]
      · rw [hself]
        split
        · exact ⟨(hf j).beginBlock, (hf j).endBlock, (hf j).beginOffset, (hf j).endOffset,
            Nat.mod_lt _ (by decide), readPhdr_vaddr_lt h, (hf j).name⟩
        · exact hf j
      · rw [hself]
        split <;> rfl
      · rw [hself]
        split <;> rfl
    have := (hcopied n).trans (hset _)
    rwa [List.append_nil] at this
  · rw [if_neg hown]
    exact ⟨_, rfl, hcopied n⟩

/-- All headers of a file. -/
theorem writePhdrs_load (fidx : Nat) (name : List UInt8) {f : List UInt8} {ehdr : Ehdr}
    {phs : List Nat} (h : ∀ ph ∈ phs, ∃ phdr, readPhdr f ehdr ph = some phdr ∧
      (phdr.type = ptLoad → phdr.offset + phdr.filesz ≤ f.length)) (b : Build) :
    ∃ b', phs.foldlM (writePhdr fidx name f ehdr) b = some b' ∧
      Loads fidx b b' ((phs.filterMap (readPhdr f ehdr)).flatMap (loaded f)) := by
  induction phs generalizing b with
  | nil => exact ⟨b, rfl, .refl⟩
  | cons ph phs ih =>
      obtain ⟨phdr, hread, hin⟩ := h ph List.mem_cons_self
      obtain ⟨b₁, hb₁, hl₁⟩ := writePhdr_loads fidx name hread hin b
      obtain ⟨b₂, hb₂, hl₂⟩ := ih (fun p hp => h p (List.mem_cons_of_mem _ hp)) b₁
      refine ⟨b₂, ?_, ?_⟩
      · rw [List.foldlM_cons, hb₁]
        exact hb₂
      · rw [List.filterMap_cons_some hread, List.flatMap_cons]
        exact hl₁.trans hl₂

/-! ## The loop over the files -/

/-- The headers of a well-formed file. -/
theorem WellFormed.loads {f : List UInt8} (hf : WellFormed f) :
    ∃ ehdr, readEhdr f = some ehdr ∧ ∀ (fidx : Nat) (name : List UInt8) (b : Build), ∃ b',
      (List.range ehdr.phnum).foldlM (writePhdr fidx name f ehdr) b = some b' ∧
      Loads fidx b b' (contents f) := by
  obtain ⟨ehdr, hread, hphs⟩ := hf
  refine ⟨ehdr, hread, fun fidx name b => ?_⟩
  obtain ⟨b', hb', hl⟩ := writePhdrs_load fidx name (fun ph hp => hphs ph (List.mem_range.1 hp)) b
  refine ⟨b', hb', ?_⟩
  have hcontents : contents f =
      ((List.range ehdr.phnum).filterMap (readPhdr f ehdr)).flatMap (loaded f) := by
    rw [contents, headers, hread]
  rw [hcontents]
  exact hl

/-- The boot sector and the kernel have no entry; the boot sector is filled up. -/
theorem writeFile_system {fidx : Nat} (hidx : fidx < 2) (name : List UInt8) {f : List UInt8}
    (hf : WellFormed f) (b : Build) : ∃ b', writeFile b (fidx, name, f) = some b' ∧
      b'.taskinfo = b.taskinfo ∧
      ∃ pad, b'.img = b.img ++ (contents f ++ List.replicate pad 0) ∧
        b'.phyaddr = b.phyaddr + (contents f).length + pad ∧
        pad = if name = bootblock then sectorSize - (b.phyaddr + (contents f).length) else 0 := by
  obtain ⟨ehdr, hread, hloop⟩ := hf.loads
  obtain ⟨b₁, hb₁, hl⟩ := hloop fidx name b
  have hnot : ¬ 2 ≤ fidx := by omega
  have htasks : b₁.taskinfo = b.taskinfo := funext fun j => hl.other j fun h => hnot h.1
  unfold writeFile
  simp only [hread, hb₁, if_neg hnot, bind, Option.bind]
  refine ⟨_, rfl, ?_, _, ?_, ?_, rfl⟩
  · split <;> exact htasks
  · split
    · simp only [writePadding, hl.img, hl.phyaddr, List.append_assoc]
    · simp only [hl.img, List.replicate_zero, List.append_nil]
  · split
    · simp only [writePadding, hl.phyaddr]
    · simp only [hl.phyaddr, Nat.add_zero]

/-- A program: its entry says where it lies. -/
theorem writeFile_task {i : Nat} {name f : List UInt8} (hboot : name ≠ bootblock)
    (hname : name.length ≤ 17) (hf : WellFormed f) (b : Build) (hfits : ∀ j, (b.taskinfo j).Fits)
    (hsize : b.phyaddr + (contents f).length < 2 ^ 25) :
    ∃ b', writeFile b (i + 2, name, f) = some b' ∧ b'.img = b.img ++ contents f ∧
      b'.phyaddr = b.phyaddr + (contents f).length ∧ (∀ j, (b'.taskinfo j).Fits) ∧
      (∀ j ≠ i, b'.taskinfo j = b.taskinfo j) ∧
      (b'.taskinfo i).start = b.phyaddr ∧ (b'.taskinfo i).stop = b'.phyaddr := by
  obtain ⟨ehdr, hread, hloop⟩ := hf.loads
  have hidx : 2 ≤ i + 2 := by omega
  obtain ⟨b₀, hb₀⟩ : ∃ b₀, b₀ = setTask (i + 2 - 2) (fun t =>
      { t with
        name := strcpy t.name name
        beginBlock := blockId b.phyaddr % 2 ^ 16
        beginOffset := (b.phyaddr - blockId b.phyaddr * 512) % 2 ^ 32 }) b := ⟨_, rfl⟩
  obtain ⟨b₁, hb₁, hl⟩ := hloop (i + 2) name b₀
  have hset (b : Build) (g : TaskInfo → TaskInfo) (j : Nat) :
      (setTask (i + 2 - 2) g b).taskinfo j = if j = i then g (b.taskinfo j) else b.taskinfo j := by
    by_cases hj : j = i
    · rw [if_pos hj, hj]
      exact Function.update_self _ _ _
    · rw [if_neg hj]
      exact Function.update_of_ne hj _ _
  have haddr : b₁.phyaddr = b.phyaddr + (contents f).length := by rw [hl.phyaddr, hb₀]; rfl
  have hfits₀ : ∀ j, (b₀.taskinfo j).Fits := by
    intro j
    rw [hb₀, hset]
    split
    · have hj := hfits j
      refine ⟨Nat.mod_lt _ (by decide), hj.endBlock, Nat.mod_lt _ (by decide), hj.endOffset,
        hj.memsz, hj.entryAddr, ?_⟩
      have hlen := hj.name
      simp only [strcpy, List.length_append, List.length_cons, List.length_drop, hlen, taskNameLen]
      omega
    · exact hfits j
  unfold writeFile
  simp only [hread, if_pos hidx, bind, Option.bind]
  rw [← hb₀]
  simp only [hb₁, if_neg hboot]
  refine ⟨_, rfl, ?_, haddr, fun j => ?_, fun j hj => ?_, ?_, ?_⟩
  · change b₁.img = _
    rw [hl.img, hb₀]
    rfl
  · rw [hset]
    split
    · have hj := hl.fits hfits₀ j
      exact ⟨hj.beginBlock, Nat.mod_lt _ (by decide), hj.beginOffset, Nat.mod_lt _ (by decide),
        hj.memsz, hj.entryAddr, hj.name⟩
    · exact hl.fits hfits₀ j
  · rw [hset, if_neg hj, hl.other j fun h => hj (by omega), hb₀, hset, if_neg hj]
  · rw [hset, if_pos rfl]
    change (b₁.taskinfo i).beginBlock * sectorSize + (b₁.taskinfo i).beginOffset = _
    rw [hl.block, hl.offset, hb₀, hset, if_pos rfl]
    simp only [blockId, sectorSize]
    omega
  · rw [hset, if_pos rfl]
    change blockId b₁.phyaddr % 2 ^ 16 * sectorSize +
      (b₁.phyaddr - blockId b₁.phyaddr % 2 ^ 16 * 512) % 2 ^ 32 = b₁.phyaddr
    rw [haddr]
    simp only [blockId, sectorSize]
    omega

/-- A name the table has room for, and a program. -/
structure IsTask (t : List UInt8 × List UInt8) : Prop where
  notBoot : t.1 ≠ bootblock
  notMain : t.1 ≠ main
  short : t.1.length ≤ 17
  wellFormed : WellFormed t.2

/-- What all programs put into the image. -/
def programs (tasks : List (List UInt8 × List UInt8)) : List UInt8 :=
  tasks.flatMap fun t => contents t.2

/-- The files, each with its number, from number `k` on. -/
def numbered (k : Nat) (files : List (List UInt8 × List UInt8)) :
    List (Nat × List UInt8 × List UInt8) :=
  (files.zipIdx k).map fun x => (x.2, x.1.1, x.1.2)

/-- The programs lie one behind the other, and each entry says where. -/
theorem writeFiles_tasks {tasks : List (List UInt8 × List UInt8)} {k : Nat} {b : Build}
    (htasks : ∀ t ∈ tasks, IsTask t) (hfits : ∀ j, (b.taskinfo j).Fits)
    (hsize : b.phyaddr + (programs tasks).length < 2 ^ 25) :
    ∃ b', (numbered (k + 2) tasks).foldlM writeFile b = some b' ∧
      b'.img = b.img ++ programs tasks ∧ b'.phyaddr = b.phyaddr + (programs tasks).length ∧
      (∀ j, (b'.taskinfo j).Fits) ∧ (∀ j < k, b'.taskinfo j = b.taskinfo j) ∧
      ∀ i < tasks.length,
        (b'.taskinfo (k + i)).start = b.phyaddr + (programs (tasks.take i)).length ∧
        (b'.taskinfo (k + i)).stop = b.phyaddr + (programs (tasks.take (i + 1))).length := by
  induction tasks generalizing k b with
  | nil =>
      exact ⟨b, rfl, (List.append_nil _).symm, rfl, hfits, fun _ _ => rfl,
        fun i hi => absurd hi (Nat.not_lt_zero i)⟩
  | cons t tasks ih =>
      have ht := htasks t List.mem_cons_self
      have hcons (l : List (List UInt8 × List UInt8)) :
          programs (t :: l) = contents t.2 ++ programs l := List.flatMap_cons
      rw [hcons, List.length_append] at hsize
      obtain ⟨b₁, hb₁, himg₁, haddr₁, hfits₁, hother₁, hstart₁, hstop₁⟩ :=
        writeFile_task (i := k) ht.notBoot ht.short ht.wellFormed b hfits (by omega)
      obtain ⟨b₂, hb₂, himg₂, haddr₂, hfits₂, hother₂, hplaced₂⟩ :=
        ih (k := k + 1) (b := b₁) (fun u hu => htasks u (List.mem_cons_of_mem _ hu)) hfits₁
          (by omega)
      refine ⟨b₂, ?_, ?_, ?_, hfits₂, fun j hj => ?_, fun i hi => ?_⟩
      · change (writeFile b (k + 2, t.1, t.2) >>= _) = _
        rw [hb₁]
        exact hb₂
      · rw [himg₂, himg₁, hcons, List.append_assoc]
      · rw [haddr₂, haddr₁, hcons, List.length_append, Nat.add_assoc]
      · rw [hother₂ j (by omega), hother₁ j (by omega)]
      · cases i with
        | zero =>
            rw [Nat.add_zero, hother₂ k (by omega), hstart₁, hstop₁, haddr₁]
            refine ⟨rfl, ?_⟩
            rw [List.take_succ_cons, hcons, List.length_append]
            rfl
        | succ i =>
            obtain ⟨hs, he⟩ := hplaced₂ i (by simp only [List.length_cons] at hi; omega)
            rw [show k + (i + 1) = k + 1 + i by omega, hs, he, haddr₁, List.take_succ_cons,
              List.take_succ_cons, hcons, hcons, List.length_append, List.length_append]
            omega

/-! ## The image -/

section Patch

variable {img bs : List UInt8} {pos : Nat}

/-- A patch between what is before and behind it. -/
theorem patch_eq (h : pos + bs.length ≤ img.length) :
    patch img pos bs = img.take pos ++ (bs ++ img.drop (pos + bs.length)) := by
  unfold patch
  rw [Nat.sub_eq_zero_of_le h, List.replicate_zero, List.append_nil, List.append_assoc]

/-- A patch inside the image keeps its length. -/
theorem length_patch (h : pos + bs.length ≤ img.length) :
    (patch img pos bs).length = img.length := by
  rw [patch_eq h]
  simp only [List.length_append, List.length_take, List.length_drop]
  omega

/-- What lies behind the patch is as before. -/
theorem drop_patch (h : pos + bs.length ≤ img.length) {n : Nat} (hn : pos + bs.length ≤ n) :
    (patch img pos bs).drop n = img.drop n := by
  rw [patch_eq h, ← List.append_assoc]
  have hlen : (img.take pos ++ bs).length = pos + bs.length := by
    rw [List.length_append, List.length_take, Nat.min_eq_left (by omega)]
  rw [List.drop_append, List.drop_eq_nil_of_le (by omega), List.nil_append, List.drop_drop, hlen,
    Nat.add_sub_cancel' hn]

/-- The patch itself. -/
theorem patch_at (h : pos + bs.length ≤ img.length) :
    ((patch img pos bs).drop pos).take bs.length = bs := by
  rw [patch_eq h]
  have hlen : (img.take pos).length = pos := by
    rw [List.length_take, Nat.min_eq_left (by omega)]
  rw [List.drop_left' hlen, List.take_left' rfl]

/-- What lies in front of the patch is as before. -/
theorem take_patch (h : pos + bs.length ≤ img.length) {n : Nat} (hn : n ≤ pos) :
    (patch img pos bs).take n = img.take n := by
  rw [patch_eq h, List.take_append_of_le_length, List.take_take, Nat.min_eq_left hn]
  rw [List.length_take]
  omega

end Patch

/-- The number of bytes of the image. -/
def imageSize (kernel : List UInt8) (tasks : List (List UInt8 × List UInt8)) : Nat :=
  sectorSize + (contents kernel).length + (programs tasks).length + taskInfoSize * tasks.length

/-- What the image holds: the number of programs and the place of the table in the boot
sector, and behind it the kernel, the programs and the table. -/
structure ImageOf (kernel : List UInt8) (tasks : List (List UInt8 × List UInt8))
    (img : List UInt8) (entries : List TaskInfo) : Prop where
  located : (img.drop taskNumLoc).take 5 = UInt8.ofNat tasks.length ::
    bytes 4 (sectorSize + (contents kernel).length + (programs tasks).length)
  payload : img.drop sectorSize =
    contents kernel ++ (programs tasks ++ entries.flatMap TaskInfo.encode)
  length : img.length = imageSize kernel tasks
  count : entries.length = tasks.length
  fits : ∀ e ∈ entries, e.Fits
  placed : ∀ i e, entries[i]? = some e →
    e.start = sectorSize + (contents kernel).length + (programs (tasks.take i)).length ∧
    e.stop = sectorSize + (contents kernel).length + (programs (tasks.take (i + 1))).length

/-- The length of a table of entries. -/
theorem length_flatMap_encode {l : List TaskInfo} (h : ∀ e ∈ l, e.Fits) :
    (l.flatMap TaskInfo.encode).length = taskInfoSize * l.length := by
  induction l with
  | nil => rfl
  | cons e l ih =>
      rw [List.flatMap_cons, List.length_append, (h e List.mem_cons_self).length_encode,
        ih fun e' he' => h e' (List.mem_cons_of_mem _ he'), List.length_cons, Nat.mul_succ,
        Nat.add_comm]

/-- The table goes to the end, and neither patch reaches behind the boot sector. -/
theorem writeImgInfo_spec (n : Int) {five img : List UInt8} (tbl : List UInt8)
    (himg : sectorSize ≤ img.length) (hfive : five.length = 5) :
    (writeImgInfo n tbl (patch img taskNumLoc five)).length = img.length + tbl.length ∧
      (writeImgInfo n tbl (patch img taskNumLoc five)).drop sectorSize =
        img.drop sectorSize ++ tbl ∧
      ((writeImgInfo n tbl (patch img taskNumLoc five)).drop taskNumLoc).take 5 = five := by
  have hsec : sectorSize = 512 := rfl
  have hnum : taskNumLoc = 0x1f7 := rfl
  have hos : osSizeLoc = 0x1fc := rfl
  have hroom : taskNumLoc + five.length ≤ img.length := by omega
  have hlen : (patch img taskNumLoc five ++ tbl).length = img.length + tbl.length := by
    rw [List.length_append, length_patch hroom]
  obtain ⟨four, hfour⟩ : ∃ four, four =
    [charOf (nbytes2sec n), charOf (nbytes2sec n / 256), 0x55, 0xaa] := ⟨_, rfl⟩
  have hlenFour : four.length = 4 := by rw [hfour]; rfl
  have hroom' : osSizeLoc + four.length ≤ (patch img taskNumLoc five ++ tbl).length := by omega
  unfold writeImgInfo
  rw [← hfour]
  refine ⟨by rw [length_patch hroom', hlen], ?_, ?_⟩
  · rw [drop_patch hroom' (by omega), List.drop_append_of_le_length (by
      rw [length_patch hroom]; omega), drop_patch hroom (by omega)]
  · have hcut (l : List UInt8) : (l.drop taskNumLoc).take 5 = (l.take osSizeLoc).drop taskNumLoc := by
      rw [List.drop_take]
      rfl
    rw [hcut, take_patch hroom' le_rfl, List.take_append_of_le_length (by
      rw [length_patch hroom]; omega), ← hcut, ← hfive, patch_at hroom]

/-- `create_image` builds the image, and what it holds. -/
theorem createImage_spec {boot kernel : List UInt8} {tasks : List (List UInt8 × List UInt8)}
    (hboot : WellFormed boot) (hsmall : (contents boot).length ≤ 0x1f7)
    (hkernel : WellFormed kernel) (htasks : ∀ t ∈ tasks, IsTask t)
    (hsize : imageSize kernel tasks < 2 ^ 25) :
    ∃ img entries, createImage ((bootblock, boot) :: (main, kernel) :: tasks) =
      some (img, entries) ∧ ImageOf kernel tasks img entries := by
  obtain ⟨b₁, hb₁, htask₁, pad, himg₁, haddr₁, hpad⟩ :=
    writeFile_system Nat.zero_lt_two bootblock hboot .start
  rw [if_pos rfl] at hpad
  have hsector : b₁.phyaddr = sectorSize := by
    rw [haddr₁, hpad]
    change 0 + (contents boot).length + (512 - (0 + (contents boot).length)) = 512
    omega
  have hlen₁ : b₁.img.length = sectorSize := by
    rw [himg₁, ← hsector, haddr₁]
    simp only [Build.start, List.nil_append, List.length_append, List.length_replicate]
    omega
  obtain ⟨b₂, hb₂, htask₂, pad', himg₂, haddr₂, hpad'⟩ :=
    writeFile_system Nat.one_lt_two main hkernel b₁
  rw [if_neg (by decide)] at hpad'
  rw [hpad', List.replicate_zero, List.append_nil] at himg₂
  rw [hpad', hsector] at haddr₂
  have hfits₂ : ∀ j, (b₂.taskinfo j).Fits := by
    intro j
    rw [htask₂, htask₁]
    exact TaskInfo.zero_fits
  unfold imageSize at hsize
  obtain ⟨b₃, hb₃, himg₃, haddr₃, hfits₃, -, hplaced₃⟩ :=
    writeFiles_tasks (k := 0) (b := b₂) htasks hfits₂ (by omega)
  have hfold : (((bootblock, boot) :: (main, kernel) :: tasks).zipIdx.map
      fun x => (x.2, x.1.1, x.1.2)).foldlM writeFile .start = some b₃ := by
    change (writeFile .start (0, bootblock, boot) >>= fun b =>
      writeFile b (1, main, kernel) >>= fun b => (numbered 2 tasks).foldlM writeFile b) = _
    simp only [hb₁, hb₂, bind, Option.bind]
    exact hb₃
  have hcount : ((bootblock, boot) :: (main, kernel) :: tasks).length - 2 = tasks.length := rfl
  have hentries : ∀ e ∈ table tasks.length b₃.taskinfo, e.Fits := by
    intro e he
    obtain ⟨i, -, rfl⟩ := List.mem_map.1 he
    exact hfits₃ i
  have hlenEntries : (table tasks.length b₃.taskinfo).length = tasks.length := by
    rw [table, List.length_map, List.length_range]
  have hlen₃ : b₃.img.length = sectorSize + (contents kernel).length + (programs tasks).length := by
    rw [himg₃, himg₂, List.length_append, List.length_append, hlen₁]
  have hlenFive : (UInt8.ofNat tasks.length :: bytes 4 b₃.phyaddr).length = 5 := by
    rw [List.length_cons, length_bytes]
  obtain ⟨hlen, hpayload, hfive⟩ := writeImgInfo_spec b₃.nbytesKernel
    ((table tasks.length b₃.taskinfo).flatMap TaskInfo.encode)
    (by rw [hlen₃]; omega : sectorSize ≤ b₃.img.length) hlenFive
  refine ⟨writeImgInfo b₃.nbytesKernel ((table tasks.length b₃.taskinfo).flatMap TaskInfo.encode)
    (patch b₃.img taskNumLoc (UInt8.ofNat tasks.length :: bytes 4 b₃.phyaddr)),
    table tasks.length b₃.taskinfo, ?_, ?_, ?_, ?_, hlenEntries, hentries, fun i e he => ?_⟩
  · unfold createImage
    simp only [hfold, bind, Option.bind, hcount]
  · rw [hfive, haddr₃, haddr₂, Nat.add_zero]
  · rw [hpayload, himg₃, himg₂, List.append_assoc, List.drop_left' hlen₁, List.append_assoc]
  · rw [hlen, hlen₃, length_flatMap_encode hentries, hlenEntries, imageSize]
  · obtain ⟨hi, rfl⟩ := List.getElem?_eq_some_iff.1 he
    rw [hlenEntries] at hi
    have hget : (table tasks.length b₃.taskinfo)[i] = b₃.taskinfo i := by
      simp only [table, List.getElem_map, List.getElem_range]
    have hpl := hplaced₃ i hi
    rw [Nat.zero_add] at hpl
    rw [hget, hpl.1, hpl.2, haddr₂]
    exact ⟨rfl, rfl⟩

/-! ## The reader -/

section Reader

variable {kernel img : List UInt8} {tasks : List (List UInt8 × List UInt8)}
  {entries : List TaskInfo} {card : Nat → UInt8} {m : Memory}

/-- The image is on the card, and the boot sector in memory. -/
structure Booted (img : List UInt8) (card : Nat → UInt8) (m : Memory) : Prop where
  onCard : ∀ k b, img[k]? = some b → card k = b
  sector : ∀ k < sectorSize, m (0x50200000 + k) = card k

/-- The kernel address of a physical one below 2 GB leads back to it. -/
theorem kva2pa_low {a : Nat} (h : a < 2 ^ 31) : Mm.kva2pa (Mm.kvaOffset + a) = a := by
  unfold Mm.kva2pa Mm.kvaOffset
  omega

/-- A slice of the image lies on the card. -/
theorem Booted.slice (h : Booted img card m) {pos n : Nat} (hn : pos + n ≤ img.length) :
    (List.range n).map (fun i => card (pos + i)) = (img.drop pos).take n := by
  apply List.ext_getElem
  · simp only [List.length_map, List.length_range, List.length_take, List.length_drop]
    omega
  · intro i h₁ h₂
    have hi : i < n := by simpa using h₁
    simp only [List.getElem_map, List.getElem_range, List.getElem_take, List.getElem_drop]
    exact h.onCard _ _ (List.getElem?_eq_getElem (by omega))

/-- The kernel reads back the two numbers that were patched into the boot sector. -/
theorem read_located (h : ImageOf kernel tasks img entries) (hb : Booted img card m) :
    m.read taskNumAddr 1 = tasks.length % 256 ∧ m.read (taskNumAddr + 1) 4 =
      (sectorSize + (contents kernel).length + (programs tasks).length) % 256 ^ 4 := by
  have hlen := h.length
  have hnum : taskNumLoc = 0x1f7 := rfl
  have hsec : sectorSize = 512 := rfl
  have hsize : taskInfoSize = 48 := rfl
  rw [imageSize] at hlen
  have hread (j : Nat) (hj : j < 5) : m.at (taskNumAddr + j) = card (taskNumLoc + j) := by
    have haddr : taskNumAddr + j = Mm.kvaOffset + (0x502001f7 + j) := by
      unfold taskNumAddr Mm.kvaOffset
      omega
    rw [Memory.at, haddr, kva2pa_low (by omega), ← hb.sector _ (by omega), hnum,
      show 0x50200000 + (0x1f7 + j) = 0x502001f7 + j by omega]
  have hslice := hb.slice (by omega : taskNumLoc + 5 ≤ img.length)
  rw [h.located, show (List.range 5) = [0, 1, 2, 3, 4] from rfl] at hslice
  simp only [List.map_cons, List.map_nil, List.cons.injEq] at hslice
  obtain ⟨h₀, htail⟩ := hslice
  constructor
  · change value [m.at (taskNumAddr + 0)] = _
    rw [hread 0 (by omega), h₀, value, value, Nat.mul_zero, Nat.add_zero]
    exact UInt8.toNat_ofNat'
  · change value [m.at (taskNumAddr + 1 + 0), m.at (taskNumAddr + 1 + 1), m.at (taskNumAddr + 1 + 2),
      m.at (taskNumAddr + 1 + 3)] = _
    rw [Nat.add_zero, Nat.add_assoc, Nat.add_assoc, Nat.add_assoc, hread 1 (by omega),
      hread 2 (by omega), hread 3 (by omega), hread 4 (by omega), htail, value_bytes]

/-- The array holds the bytes of the table. -/
theorem initTaskInfo_bytes (h : ImageOf kernel tasks img entries) (hb : Booted img card m)
    (hcount : tasks.length ≤ taskMaxnum) (hsize : imageSize kernel tasks < 2 ^ 25)
    (old : Nat → UInt8) {k : Nat} (hk : k < taskInfoSize * tasks.length) :
    initTaskInfo card m old k =
      card (sectorSize + (contents kernel).length + (programs tasks).length + k) := by
  obtain ⟨hnum, hbase⟩ := read_located h hb
  obtain ⟨base, hbaseEq⟩ : ∃ base,
    base = sectorSize + (contents kernel).length + (programs tasks).length := ⟨_, rfl⟩
  have hti : taskInfoSize = 48 := rfl
  have hmax : taskMaxnum = 16 := rfl
  rw [imageSize, ← hbaseEq, hti] at hsize
  rw [hti] at hk
  rw [← hbaseEq] at hbase ⊢
  rw [Nat.mod_eq_of_lt (by omega)] at hnum hbase
  have hdest : Mm.kva2pa 0xfffffc0058000000 % 2 ^ 32 = 0x58000000 := by decide
  have hsrc : Mm.kva2pa (Mm.pa2kva (0x58000000 + (base - base / 512 * 512)) + k) =
      0x58000000 + (base % 512 + k) := by
    rw [Mm.pa2kva, Nat.mod_eq_of_lt (by unfold Mm.kvaOffset; omega),
      show 0x58000000 + (base - base / 512 * 512) + Mm.kvaOffset + k =
        Mm.kvaOffset + (0x58000000 + (base % 512 + k)) by omega, kva2pa_low (by omega)]
  -- The sectors that are read reach up to the last byte of the table.
  obtain ⟨stop, hstop⟩ : ∃ stop, stop = base + tasks.length * 48 := ⟨_, rfl⟩
  have hblock : stop / 512 % 2 ^ 32 = stop / 512 := Nat.mod_eq_of_lt (by omega)
  have hoffset : (stop - stop / 512 * 512) % 2 ^ 32 = stop % 512 := by omega
  have hsectors : 0x58000000 + (base % 512 + k) < 0x58000000 + 512 *
      (stop / 512 - base / 512 + if stop % 512 ≠ 0 then 1 else 0) := by
    split <;> omega
  have haddr : 512 * (base / 512) + (0x58000000 + (base % 512 + k) - 0x58000000) = base + k := by
    omega
  unfold initTaskInfo
  simp only [hnum, hbase, hti]
  rw [if_pos (by omega), Memory.at, hsrc, sdread, hdest, ← hstop, hblock, hoffset,
    if_pos ⟨by omega, hsectors⟩, haddr]

/-- A table of entries, read at the place of one of them. -/
theorem drop_encodes {l : List TaskInfo} (hf : ∀ e ∈ l, e.Fits) {i : Nat} {e : TaskInfo}
    (he : l[i]? = some e) :
    ((l.flatMap TaskInfo.encode).drop (taskInfoSize * i)).take taskInfoSize = e.encode := by
  induction l generalizing i with
  | nil => cases he
  | cons a l ih =>
      have ha := (hf a List.mem_cons_self).length_encode
      rw [List.flatMap_cons]
      cases i with
      | zero =>
          cases he
          rw [Nat.mul_zero, List.drop_zero, List.take_left' ha]
      | succ i =>
          rw [Nat.mul_succ, Nat.add_comm, ← List.drop_drop, List.drop_left' ha]
          exact ih (fun e' he' => hf e' (List.mem_cons_of_mem _ he')) he

/-- `init_task_info` finds the entries of the image. -/
theorem initTaskInfo_spec (h : ImageOf kernel tasks img entries) (hb : Booted img card m)
    (hcount : tasks.length ≤ taskMaxnum) (hsize : imageSize kernel tasks < 2 ^ 25)
    (old : Nat → UInt8) {i : Nat} {e : TaskInfo} (he : entries[i]? = some e) :
    taskAt (initTaskInfo card m old) i = e := by
  have hi : i < tasks.length := h.count ▸ (List.getElem?_eq_some_iff.1 he).1
  have hti : taskInfoSize = 48 := rfl
  have hlen := h.length
  rw [imageSize] at hlen
  obtain ⟨base, hbase⟩ : ∃ base,
    base = sectorSize + (contents kernel).length + (programs tasks).length := ⟨_, rfl⟩
  have hbytes : (List.range taskInfoSize).map (fun k => initTaskInfo card m old (taskInfoSize * i + k))
      = (List.range taskInfoSize).map fun k => card (base + taskInfoSize * i + k) := by
    refine List.map_congr_left fun k hk => ?_
    have hk := List.mem_range.1 hk
    rw [hti] at hk
    rw [initTaskInfo_bytes h hb hcount hsize old (by rw [hti]; omega), ← hbase, Nat.add_assoc]
  have htable : img.drop base = entries.flatMap TaskInfo.encode := by
    rw [hbase, Nat.add_assoc, ← List.drop_drop, h.payload, ← List.append_assoc, List.drop_left']
    rw [List.length_append]
  rw [taskAt, hbytes, hb.slice (by rw [hti] at hlen ⊢; omega), ← List.drop_drop, htable, drop_encodes h.fits he,
    decode_encode (h.fits e (List.mem_of_getElem? he))]

end Reader

/-! ## Writer and reader together -/

/-- A program stands between those in front of it and those behind it. -/
theorem programs_split {tasks : List (List UInt8 × List UInt8)} {i : Nat}
    {t : List UInt8 × List UInt8} (ht : tasks[i]? = some t) :
    programs (tasks.take (i + 1)) = programs (tasks.take i) ++ contents t.2 ∧
      programs tasks = programs (tasks.take i) ++ (contents t.2 ++ programs (tasks.drop (i + 1))) := by
  have htake : programs (tasks.take (i + 1)) = programs (tasks.take i) ++ contents t.2 := by
    rw [programs, List.take_add_one, ht, List.flatMap_append]
    simp only [programs, Option.toList_some, List.flatMap_cons, List.flatMap_nil, List.append_nil]
  refine ⟨htake, ?_⟩
  rw [← List.append_assoc, ← htake, programs, programs, programs, ← List.flatMap_append,
    List.take_append_drop]

/-- The image of a boot sector, a kernel and up to sixteen programs: each program lies
where its entry says, behind the kernel and right behind the program before it, and
the kernel fills `tasks` with the entries of the image. -/
theorem table_round_trip {boot kernel : List UInt8} {tasks : List (List UInt8 × List UInt8)}
    (hboot : WellFormed boot) (hsmall : (contents boot).length ≤ 0x1f7)
    (hkernel : WellFormed kernel) (hcount : tasks.length ≤ taskMaxnum)
    (htasks : ∀ t ∈ tasks, IsTask t) (hsize : imageSize kernel tasks < 2 ^ 25) :
    ∃ (img : List UInt8) (entries : List TaskInfo),
      createImage ((bootblock, boot) :: (main, kernel) :: tasks) = some (img, entries) ∧
      img.length = imageSize kernel tasks ∧ entries.length = tasks.length ∧
      (∀ (i : Nat) (t : List UInt8 × List UInt8) (e : TaskInfo), tasks[i]? = some t →
        entries[i]? = some e → e.start ≤ e.stop ∧
        (img.drop e.start).take (e.stop - e.start) = contents t.2) ∧
      (∀ (i : Nat) (e e' : TaskInfo), entries[i]? = some e → entries[i + 1]? = some e' →
        e'.start = e.stop) ∧
      (img.drop sectorSize).take (contents kernel).length = contents kernel ∧
      (∀ e ∈ entries, sectorSize + (contents kernel).length ≤ e.start) ∧
      ∀ (card : Nat → UInt8) (m : Memory) (old : Nat → UInt8), Booted img card m →
        ∀ i e, entries[i]? = some e → taskAt (initTaskInfo card m old) i = e := by
  obtain ⟨img, entries, hcreate, h⟩ := createImage_spec hboot hsmall hkernel htasks hsize
  refine ⟨img, entries, hcreate, h.length, h.count, fun i t e ht he => ?_, fun i e e' he he' => ?_,
    ?_, fun e he => ?_, fun card m old hb i e he => initTaskInfo_spec h hb hcount hsize old he⟩
  · obtain ⟨hstart, hstop⟩ := h.placed i e he
    obtain ⟨htake, hall⟩ := programs_split ht
    rw [htake, List.length_append] at hstop
    refine ⟨by omega, ?_⟩
    have hlen : e.stop - e.start = (contents t.2).length := by omega
    have hfront : contents kernel ++ (programs tasks ++ entries.flatMap TaskInfo.encode) =
        (contents kernel ++ programs (tasks.take i)) ++
          (contents t.2 ++ (programs (tasks.drop (i + 1)) ++ entries.flatMap TaskInfo.encode)) := by
      rw [hall]
      simp only [List.append_assoc]
    rw [hlen, hstart, Nat.add_assoc, ← List.drop_drop, h.payload, hfront,
      List.drop_left' (by rw [List.length_append]), List.take_left' rfl]
  · rw [(h.placed _ _ he').1, (h.placed _ _ he).2]
  · rw [h.payload, List.take_left' rfl]
  · obtain ⟨i, hi⟩ := List.mem_iff_getElem?.1 he
    rw [(h.placed i e hi).1]
    omega

/-- A file with one header, that loads the bytes `code` to `0x10000`. -/
def elf (code : List UInt8) : List UInt8 :=
  [127, 69, 76, 70] ++ List.replicate 28 0 ++ bytes 8 64 ++ List.replicate 14 0 ++ bytes 2 56 ++
    bytes 2 1 ++ List.replicate 6 0 ++ bytes 8 1 ++ bytes 8 120 ++ bytes 8 0x10000 ++ bytes 8 0 ++
    bytes 8 code.length ++ bytes 8 code.length ++ bytes 8 0 ++ code

/-- The sample file is well formed. -/
theorem elf_wellFormed : WellFormed (elf [1, 2, 3]) := by
  refine ⟨⟨64, 56, 1⟩, by decide +kernel, fun ph hp =>
    ⟨⟨1, 120, 0x10000, 3, 3⟩, ?_, fun _ => by decide +kernel⟩⟩
  obtain rfl : ph = 0 := by
    simp only at hp
    omega
  decide +kernel

/-- What the sample file loads. -/
theorem elf_contents : contents (elf [1, 2, 3]) = [1, 2, 3] := by
  decide +kernel

/-- The image of a boot sector, a kernel and the programs `a` and `b`. -/
theorem table_round_trip_ab : ∃ (img : List UInt8) (entries : List TaskInfo),
    createImage [(bootblock, elf [1, 2, 3]), (main, elf [1, 2, 3]), ([97], elf [1, 2, 3]),
      ([98], elf [1, 2, 3])] = some (img, entries) ∧
    ∀ (card : Nat → UInt8) (m : Memory) (old : Nat → UInt8), Booted img card m →
      ∀ i e, entries[i]? = some e → taskAt (initTaskInfo card m old) i = e := by
  have htasks : ∀ t ∈ [(([97] : List UInt8), elf [1, 2, 3]), ([98], elf [1, 2, 3])], IsTask t := by
    intro t ht
    simp only [List.mem_cons, List.not_mem_nil, or_false] at ht
    rcases ht with rfl | rfl
    · exact ⟨by decide +kernel, by decide +kernel, by decide +kernel, elf_wellFormed⟩
    · exact ⟨by decide +kernel, by decide +kernel, by decide +kernel, elf_wellFormed⟩
  obtain ⟨img, entries, hcreate, -, -, -, -, -, -, hread⟩ :=
    table_round_trip elf_wellFormed (by rw [elf_contents]; decide) elf_wellFormed (by decide) htasks
      (by simp only [imageSize, programs, List.flatMap_cons, List.flatMap_nil, elf_contents]; decide)
  exact ⟨img, entries, hcreate, hread⟩

end Boot
