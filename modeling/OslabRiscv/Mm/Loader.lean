import OslabRiscv.Boot.Image
import OslabRiscv.Mm.Bytes
import OslabRiscv.Mm.Threads

/-!
# Loading a program

`load_task_img` reads a program from the card two sectors at a time, as it may begin
anywhere in a sector, and copies it into pages in steps of 512 bytes.  What the file
does not fill is cleared in three places: behind a step that was not full, and in the
pages the file does not reach.
-/

namespace Mm

open Outcome Boot

/-! ## The copy loop -/

def memcpy (dest : Nat) (src : Nat → UInt8) (len : Nat) (page : Nat → UInt8) : Nat → UInt8 :=
  fun o => if dest ≤ o ∧ o < dest + len then src (o - dest) else page o

def memset (dest : Nat) (val : UInt8) (len : Nat) (page : Nat → UInt8) : Nat → UInt8 :=
  fun o => if dest ≤ o ∧ o < dest + len then val else page o

/-- The buffer of 1024 bytes after two sectors have been read, and what lies behind it. -/
def readBuffer (card behind : Nat → UInt8) (block i : Nat) : UInt8 :=
  if i < 1024 then card (512 * block + i) else behind i

/-- The loop over the sectors of one page, from `blockIt` on; their numbers have 32 bits. -/
def copyBlocks (card behind : Nat → UInt8) (beginBlock beginOffset : Nat) :
    Nat → Nat → Nat → (Nat → UInt8) → Nat → UInt8
  | 0, _, _, page => page
  | n + 1, blockIt, leftByte, page =>
    if leftByte = 0 then page
    else
      let page := memcpy (blockIt * 512)
        (fun i => readBuffer card behind ((beginBlock + blockIt) % 2 ^ 32) (beginOffset + i))
        (min 512 leftByte) page
      if leftByte < 512 then
        memset (blockIt * 512 + leftByte) 0 (4096 - blockIt * 512 - leftByte) page
      else copyBlocks card behind beginBlock beginOffset n (blockIt + 1) (leftByte - 512) page

/-- `begin_addr` and `end_addr`; the sums have 32 bits. -/
def beginAddr (t : TaskInfo) : Nat := (t.beginBlock * 512 + t.beginOffset) % 2 ^ 32
def endAddr (t : TaskInfo) : Nat := (t.endBlock * 512 + t.endOffset) % 2 ^ 32

def filesz (t : TaskInfo) : Nat := (endAddr t + (2 ^ 64 - beginAddr t)) % 2 ^ 64

/-- The loop over the pages, from `it` on; `block` is `begin_block`, which goes on with the
pages of the file. -/
def loadLoop (card behind : Nat → UInt8) (p : Nat) (t : TaskInfo) :
    Nat → Nat → Nat → State → Except Stop State
  | 0, _, _, _ => .error .endless
  | n + 1, it, block, s =>
    if it < t.memsz then do
      let (kva, s) ← allocPageHelper (t.entryAddr + it) p .unswapable s
      if it < filesz t then
        let page := copyBlocks card behind block t.beginOffset 8 0 (filesz t - it)
          (byteAt (s.mem kva))
        loadLoop card behind p t n (it + 4096) ((block + 8) % 2 ^ 32)
          (setContent kva (packPage page) s)
      else loadLoop card behind p t n (it + 4096) block (clearPgdir kva s)
    else .ok s

/-- `load_task_img` with the entry it has found. -/
def loadTask (card behind : Nat → UInt8) (p : Nat) (t : TaskInfo) (s : State) : Except Stop State :=
  loadLoop card behind p t (t.memsz + 1) 0 t.beginBlock s

/-! ## One page -/

variable {card behind : Nat → UInt8} {block off : Nat}

section Copies

variable {dest len o : Nat} {src page : Nat → UInt8} {val : UInt8}

/-- A byte that is copied. -/
theorem memcpy_in (h : dest ≤ o ∧ o < dest + len) : memcpy dest src len page o = src (o - dest) :=
  if_pos h

/-- A byte beside the copy. -/
theorem memcpy_out (h : ¬(dest ≤ o ∧ o < dest + len)) : memcpy dest src len page o = page o :=
  if_neg h

/-- A byte that is set. -/
theorem memset_in (h : dest ≤ o ∧ o < dest + len) : memset dest val len page o = val := if_pos h

/-- A byte beside them. -/
theorem memset_out (h : ¬(dest ≤ o ∧ o < dest + len)) : memset dest val len page o = page o :=
  if_neg h

end Copies

/-- A step reads from the two sectors. -/
theorem readBuffer_in (hoff : off ≤ 512) {i : Nat} (hi : i < 512) :
    readBuffer card behind block (off + i) = card (512 * block + off + i) := by
  unfold readBuffer
  rw [if_pos (by omega), Nat.add_assoc]

/-- A step copies into its 512 bytes of the page. -/
theorem memcpy_step (hoff : off ≤ 512) {blockIt left o : Nat} {page : Nat → UInt8}
    (hblock : block + blockIt < 2 ^ 32) (hin : o - blockIt * 512 < min 512 left)
    (hge : blockIt * 512 ≤ o) :
    memcpy (blockIt * 512) (fun i => readBuffer card behind ((block + blockIt) % 2 ^ 32) (off + i))
      (min 512 left) page o = card (512 * (block + blockIt) + off + (o - blockIt * 512)) := by
  rw [memcpy_in ⟨hge, by omega⟩, Nat.mod_eq_of_lt hblock]
  exact readBuffer_in hoff (by omega)

/-- What the loop leaves from its first sector on: the bytes of the file, and behind them
zeros if the last step was not full.  If it was, the page keeps what it held. -/
theorem copyBlocks_byte (hoff : off ≤ 512) (hblock : block + 8 < 2 ^ 32) :
    ∀ (n blockIt left : Nat) (page : Nat → UInt8), n + blockIt = 8 → ∀ o < 4096, copyBlocks card behind block off n blockIt left page o =
      if o < blockIt * 512 then page o
      else if o - blockIt * 512 < left then
        card (512 * (block + blockIt) + off + (o - blockIt * 512))
      else if left % 512 = 0 then page o else 0 := by
  intro n
  induction n with
  | zero =>
      intro blockIt left page hn o ho
      rw [if_pos (by omega)]
      rfl
  | succ n ih =>
      intro blockIt left page hn o ho
      have hnumber : block + blockIt < 2 ^ 32 := by omega
      unfold copyBlocks
      by_cases hleft : left = 0
      · rw [if_pos hleft, hleft]
        simp
      · rw [if_neg hleft]
        by_cases hlast : left < 512
        · -- the step that is not full
          rw [if_pos hlast]
          have hmod : left % 512 ≠ 0 := by omega
          rw [if_neg hmod]
          by_cases hbefore : o < blockIt * 512
          · rw [memset_out (by omega), memcpy_out (by omega), if_pos hbefore]
          · rw [if_neg hbefore]
            by_cases hin : o - blockIt * 512 < left
            · rw [memset_out (by omega), memcpy_step hoff hnumber (by omega) (by omega), if_pos hin]
            · rw [memset_in (by omega), if_neg hin]
        · have hmod : (left - 512) % 512 = left % 512 := by omega
          have hnext : (blockIt + 1) * 512 = 512 + blockIt * 512 := by
            rw [Nat.add_mul, Nat.one_mul, Nat.add_comm]
          have hsector : 512 * (block + (blockIt + 1)) = 512 * (block + blockIt) + 512 := by
            rw [← Nat.add_assoc, Nat.mul_add 512 (block + blockIt), Nat.mul_one]
          rw [if_neg hlast, ih _ _ _ (by omega) o ho, hmod, hnext, hsector]
          by_cases hbefore : o < blockIt * 512
          · rw [if_pos (Nat.lt_add_left 512 hbefore), if_pos hbefore]
            exact memcpy_out fun hc => absurd hc.1 (Nat.not_le.2 hbefore)
          · obtain ⟨k, rfl⟩ : ∃ k, o = k + blockIt * 512 :=
              ⟨o - blockIt * 512, (Nat.sub_add_cancel (Nat.not_lt.1 hbefore)).symm⟩
            rw [if_neg hbefore, Nat.add_sub_cancel, Nat.add_sub_add_right]
            simp only [Nat.add_lt_add_iff_right]
            by_cases hstep : k < 512
            · have hin : k < left := by omega
              have hlen : k + blockIt * 512 - blockIt * 512 < min 512 left := by
                rw [Nat.add_sub_cancel]
                omega
              rw [if_pos hstep, memcpy_step hoff hnumber hlen (Nat.le_add_left _ _), if_pos hin,
                Nat.add_sub_cancel]
            · have hout : memcpy (blockIt * 512)
                  (fun i => readBuffer card behind ((block + blockIt) % 2 ^ 32) (off + i))
                  (min 512 left) page (k + blockIt * 512) = page (k + blockIt * 512) :=
                memcpy_out (by omega)
              have hsame : 512 * (block + blockIt) + 512 + off + (k - 512) =
                  512 * (block + blockIt) + off + k := by omega
              have hin : k - 512 < left - 512 ↔ k < left := by omega
              rw [if_neg hstep, hout, hsame]
              simp only [hin]

/-! ## All pages -/

/-- The entry describes a range of the card, and whole pages of user addresses. -/
structure Loadable (root : Nat → Pte) (t : TaskInfo) : Prop where
  aligned : t.entryAddr % 4096 = 0
  offset : t.beginOffset < 512
  low : t.entryAddr + t.memsz ≤ 2 ^ 39
  user : ∀ i < t.memsz, User root (vpn2 (t.entryAddr + i))
  size : filesz t ≤ t.memsz
  range : t.beginBlock * 512 + t.beginOffset ≤ t.endBlock * 512 + t.endOffset ∧
    t.endBlock * 512 + t.endOffset < 2 ^ 32

/-- What is to be at offset `i` of the program in memory. -/
def fileByte (card : Nat → UInt8) (t : TaskInfo) (i : Nat) : UInt8 :=
  if i < filesz t then card (512 * t.beginBlock + t.beginOffset + i) else 0

/-- The last step of the file is not full, or it is the last of a page, or nothing is to be
cleared. -/
def TailCleared (t : TaskInfo) : Prop :=
  filesz t % 512 ≠ 0 ∨ filesz t % 4096 = 0 ∨ t.memsz = filesz t

instance (t : TaskInfo) : Decidable (TailCleared t) :=
  inferInstanceAs (Decidable (_ ∨ _ ∨ _))

/-- What is to be read in the program's memory. -/
def LoadedImage (card : Nat → UInt8) (p : Nat) (t : TaskInfo) (s : State) : Prop :=
  ∀ i < t.memsz, userByte p (t.entryAddr + i) s = some (fileByte card t i)

/-- At the place in a page that `va` has, no free page holds a zero, and neither does the page
at `va`, if there is one. -/
def Unclean (p va : Nat) (s : State) : Prop :=
  (∀ a, s.kernMemCurr ≤ a → byteAt (s.mem a) (va % 4096) ≠ 0) ∧ userByte p va s ≠ some 0

/-- What is put into the page at `it`, with the content it had. -/
def pageContent (card behind : Nat → UInt8) (t : TaskInfo) (it : Nat) (old : Nat → UInt8) :
    Nat → UInt8 :=
  if it < filesz t then
    copyBlocks card behind (t.beginBlock + it / 512) t.beginOffset 8 0 (filesz t - it) old
  else fun _ => 0

/-- The bytes of the pages before `it` are as `Q` says. -/
def LoadedTo (Q : Nat → UInt8 → Prop) (p : Nat) (t : TaskInfo) (own : Owners) (it : Nat)
    (s : State) : Prop :=
  ∀ j, j * 4096 < it → ∃ x, own x = some (p, some (pathOf (t.entryAddr + j * 4096))) ∧
    ∀ o < 4096, j * 4096 + o < t.memsz → Q (j * 4096 + o) (byteAt (s.mem (s.pages x).kva) o)

variable {root : Nat → Pte} {own own' : Owners} {p d x it : Nat} {s : State} {t : TaskInfo}

/-- The file is below 4 GB. -/
theorem Loadable.sector (ht : Loadable root t) (hin : it < filesz t) :
    t.beginBlock + it / 512 < 2 ^ 23 := by
  obtain ⟨hle, hlt⟩ := ht.range
  unfold filesz endAddr beginAddr at hin
  omega

/-- A byte behind the file is a zero, or what it was if the last step of the file is full and ends
on its page. -/
theorem pageContent_byte (ht : Loadable root t) (hit : it % 4096 = 0) (old : Nat → UInt8) {o : Nat}
    (ho : o < 4096) : pageContent card behind t it old o =
      if filesz t % 512 = 0 ∧ it < filesz t ∧ filesz t ≤ it + o then old o
      else fileByte card t (it + o) := by
  unfold pageContent fileByte
  by_cases hin : it < filesz t
  · have hsector : t.beginBlock + it / 512 + 8 < 2 ^ 32 := by
      have := ht.sector hin
      omega
    rw [if_pos hin, copyBlocks_byte (Nat.le_of_lt ht.offset) hsector 8 0 _ _ rfl o ho,
      if_neg (by omega)]
    by_cases hfile : it + o < filesz t
    · rw [if_pos (by omega), if_neg (by omega), if_pos hfile]
      congr 1
      omega
    · rw [if_neg (by omega), if_neg hfile]
      by_cases hfull : filesz t % 512 = 0
      · rw [if_pos (by omega), if_pos (by omega)]
      · rw [if_neg (by omega), if_neg (by omega)]
  · rw [if_neg hin, if_neg (by omega), if_neg (by omega)]

/-- With its tail cleared a page holds the file and zeros behind it. -/
theorem pageContent_cleared (ht : Loadable root t) (hclear : TailCleared t) (hit : it % 4096 = 0)
    (old : Nat → UInt8) {o : Nat} (ho : o < 4096) (hmem : it + o < t.memsz) :
    pageContent card behind t it old o = fileByte card t (it + o) := by
  rw [pageContent_byte ht hit old ho, if_neg ?_]
  rintro ⟨hfull, hlo, hhi⟩
  rcases hclear with h | h | h <;> omega

/-- Different pages have different paths. -/
theorem pathOf_inj {va va' : Nat} (h : va < 2 ^ 39) (h' : va' < 2 ^ 39)
    (hpath : pathOf va = pathOf va') : va / 4096 = va' / 4096 := by
  unfold pathOf at hpath
  obtain ⟨h0, hpath⟩ := List.cons.inj hpath
  obtain ⟨h1, hpath⟩ := List.cons.inj hpath
  obtain ⟨h2, -⟩ := List.cons.inj hpath
  exact page_of_vpns h' h h2 h1 h0

/-- The other pages keep what they held. -/
theorem Paged.keeps {r : Nat × State} {va va' y : Nat} (hp : Paged root own va p s own' x r)
    (hpin : Pinned own s p) (c : Nat → Pte) (hy : own y = some (p, some (pathOf va')))
    (hne : pathOf va' ≠ pathOf va) :
    (setContent r.1 c r.2).mem ((setContent r.1 c r.2).pages y).kva = s.mem (s.pages y).kva := by
  have hpin' : Pinned own' r.2 p := hpin.grows hp.grows
  have hy' := hp.grows.kept y _ hy
  have hpages : r.2.pages y = s.pages y :=
    hp.grows.pages y (by rw [hy]; simp) (by rw [hpin y _ hy]; decide)
  have hkva : (s.pages y).kva ≠ r.1 := by
    intro hcon
    rw [hp.kva, ← hpages] at hcon
    have hyx := hp.sane.shape.frame_inj y x (by rw [hy']; simp) (by rw [hp.page]; simp)
      (hpin'.res hy') (hpin'.res hp.page) hcon
    rw [hyx, hp.page] at hy'
    have hpath : pathOf va = pathOf va' := by simpa using hy'
    exact hne hpath.symm
  rw [← hp.leaves y _ hy rfl]
  change (fun i => if (r.2.pages y).kva = r.1 then c i else r.2.mem (r.2.pages y).kva i) = _
  funext i
  rw [hpages, if_neg hkva]

/-- One more page, with what has been put into it. -/
theorem Paged.loaded {r : Nat × State} {Q : Nat → UInt8 → Prop}
    (hp : Paged root own (t.entryAddr + it) p s own' x r)
    (hpin : Pinned own s p) (ht : Loadable root t) (hit : it % 4096 = 0) (hlt : it < t.memsz)
    (hto : LoadedTo Q p t own it s) {c : Nat → Pte}
    (hc : ∀ o < 4096, it + o < t.memsz → Q (it + o) (byteAt c o)) :
    Sane root own' (setContent r.1 c r.2) ∧ Pinned own' (setContent r.1 c r.2) p ∧
      LoadedTo Q p t own' (it + 4096) (setContent r.1 c r.2) := by
  have hpin' : Pinned own' r.2 p := hpin.grows hp.grows
  have hw : Writes (r.2.pages x).kva r.2 (setContent r.1 c r.2) := by
    rw [hp.kva]
    exact writes_setContent _ _ _
  refine ⟨hp.sane.write hp.page (hpin'.res hp.page) hw, hpin', fun j hj => ?_⟩
  by_cases hlast : j * 4096 = it
  · refine ⟨x, by rw [hlast]; exact hp.page, fun o ho hmem => ?_⟩
    have hself : (setContent r.1 c r.2).mem ((setContent r.1 c r.2).pages x).kva = c := by
      change (fun i => if (r.2.pages x).kva = r.1 then c i else _) = c
      funext i
      rw [if_pos hp.kva.symm]
    rw [hself, hlast]
    exact hc o ho (by omega)
  · obtain ⟨y, hy, hbytes⟩ := hto j (by omega)
    refine ⟨y, hp.grows.kept y _ hy, fun o ho hmem => ?_⟩
    have hne : pathOf (t.entryAddr + j * 4096) ≠ pathOf (t.entryAddr + it) := by
      intro hpath
      have hlow := ht.low
      have hpage := pathOf_inj (by omega) (by omega) hpath
      have halign := ht.aligned
      omega
    rw [hp.keeps hpin c hy hne]
    exact hbytes o ho hmem

/-- What is loaded is an image, whose pages are those of the program. -/
theorem loadLoop_img : ∀ (n it block : Nat) (s : State), t.memsz - it < n →
    ∃ image, (∀ c ∈ image, ∃ i < t.memsz, c.1 = t.entryAddr + i) ∧
      loadLoop card behind p t n it block s = loadTaskImg p image s := by
  intro n
  induction n with
  | zero =>
      intro it block s hn
      exact absurd hn (Nat.not_lt_zero _)
  | succ n ih =>
      intro it block s hn
      unfold loadLoop
      by_cases hlt : it < t.memsz
      · rw [if_pos hlt]
        cases halloc : allocPageHelper (t.entryAddr + it) p .unswapable s with
        | error e =>
            refine ⟨[(t.entryAddr + it, fun _ => ⟨0, 0⟩)], fun c hc => ?_, ?_⟩
            · rw [List.mem_singleton.1 hc]
              exact ⟨it, hlt, rfl⟩
            · unfold loadTaskImg
              rw [halloc]
              rfl
        | ok r =>
            obtain ⟨kva, s₁⟩ := r
            have hcons (c : Nat → Pte) (block : Nat) : ∃ image,
                (∀ c ∈ image, ∃ i < t.memsz, c.1 = t.entryAddr + i) ∧
                loadLoop card behind p t n (it + 4096) block (setContent kva c s₁) =
                  loadTaskImg p image s := by
              obtain ⟨image, hpages, himage⟩ :=
                ih (it + 4096) block (setContent kva c s₁) (by omega)
              refine ⟨(t.entryAddr + it, c) :: image, fun d hd => ?_, ?_⟩
              · rcases List.mem_cons.1 hd with rfl | hd
                · exact ⟨it, hlt, rfl⟩
                · exact hpages d hd
              · rw [himage]
                conv_rhs => unfold loadTaskImg
                rw [halloc]
                rfl
            change ∃ image, _ ∧ (if it < filesz t then _ else _) = _
            split_ifs with hfile
            · exact hcons _ _
            · exact hcons _ _
      · rw [if_neg hlt]
        exact ⟨[], fun c hc => absurd hc List.not_mem_nil, rfl⟩

/-- `load_task_img` is the loop over an image, and makes an end if every page is given. -/
theorem loadTask_img (card behind : Nat → UInt8) (p : Nat) (t : TaskInfo) (s : State) :
    ∃ image, (∀ c ∈ image, ∃ i < t.memsz, c.1 = t.entryAddr + i) ∧
      loadTask card behind p t s = loadTaskImg p image s :=
  loadLoop_img _ 0 _ s (by omega)

/-- The loop, with what every page keeps and what comes into it. -/
theorem loadLoop_loaded (ht : Loadable root t) {Q : Nat → UInt8 → Prop}
    {J : Nat → Owners → State → Prop}
    (hstep : ∀ {it x : Nat} {own own' : Owners} {s : State} {r : Nat × State} {c : Nat → Pte},
      it % 4096 = 0 → it < t.memsz → Sane root own s → Pinned own s p →
      Paged root own (t.entryAddr + it) p s own' x r → J it own s →
      (∀ o, byteAt c o = pageContent card behind t it (byteAt (r.2.mem r.1)) o) →
      (∀ o < 4096, it + o < t.memsz → Q (it + o) (byteAt c o)) ∧
        J (it + 4096) own' (setContent r.1 c r.2)) :
    ∀ (n it block : Nat) (own : Owners) (s : State), Sane root own s → own d = some (p, some []) →
      Pinned own s p → it % 4096 = 0 → (it < filesz t → block = t.beginBlock + it / 512) →
      J it own s → LoadedTo Q p t own it s →
      Holds AnyStop (fun s' => ∃ own', Sane root own' s' ∧ Pinned own' s' p ∧
        LoadedTo Q p t own' t.memsz s') (loadLoop card behind p t n it block s) := by
  intro n
  induction n with
  | zero =>
      intro it block own s _ _ _ _ _ _ _
      trivial
  | succ n ih =>
      intro it block own s hs hd hpin hit hblock hj hto
      unfold loadLoop
      by_cases hlt : it < t.memsz
      · rw [if_pos hlt]
        refine Holds.bind (allocPageHelper_paged hs hd (ht.user it hlt) hpin) fun r hr => ?_
        obtain ⟨own₁, x, hp⟩ := hr
        have hd₁ := hp.grows.kept d _ hd
        obtain ⟨kva, s₁⟩ := r
        simp only
        split_ifs with hfile
        · have hc : ∀ o, byteAt (packPage (copyBlocks card behind block t.beginOffset 8 0
              (filesz t - it) (byteAt (s₁.mem kva)))) o =
                pageContent card behind t it (byteAt (s₁.mem kva)) o := by
            intro o
            unfold pageContent
            rw [byteAt_packPage, if_pos hfile, hblock hfile]
          obtain ⟨hq, hj₂⟩ := hstep hit hlt hs hpin hp hj hc
          obtain ⟨hs₂, hpin₂, hto₂⟩ := hp.loaded hpin ht hit hlt hto hq
          have hnext : it + 4096 < filesz t →
              (block + 8) % 2 ^ 32 = t.beginBlock + (it + 4096) / 512 := by
            intro _
            have := ht.sector hfile
            rw [hblock hfile]
            omega
          exact ih _ _ own₁ _ hs₂ hd₁ hpin₂ (by omega) hnext hj₂ hto₂
        · have hc : ∀ o, byteAt (fun _ => ⟨0, 0⟩) o =
              pageContent card behind t it (byteAt (s₁.mem kva)) o := by
            intro o
            unfold pageContent
            rw [byteAt_zero, if_neg hfile]
          obtain ⟨hq, hj₂⟩ := hstep hit hlt hs hpin hp hj hc
          obtain ⟨hs₂, hpin₂, hto₂⟩ := hp.loaded hpin ht hit hlt hto hq
          exact ih _ _ own₁ _ hs₂ hd₁ hpin₂ (by omega) (fun _ => by omega) hj₂ hto₂
      · rw [if_neg hlt]
        exact ⟨own, hs, hpin, fun j hj => hto j (by omega)⟩

/-- What a user program reads of it. -/
theorem LoadedTo.userByte {Q : Nat → UInt8 → Prop} (h : LoadedTo Q p t own t.memsz s)
    (hs : Shape root own s) (hpin : Pinned own s p) (ht : Loadable root t) {i : Nat}
    (hi : i < t.memsz) : ∃ b, userByte p (t.entryAddr + i) s = some b ∧ Q i b := by
  obtain ⟨x, hx, hbytes⟩ := h (i / 4096) (by omega)
  have halign := ht.aligned
  have hpage : pathOf (t.entryAddr + i / 4096 * 4096) = pathOf (t.entryAddr + i) :=
    pathOf_congr (by omega)
  rw [hpage] at hx
  have hoff : (t.entryAddr + i) % 4096 = i % 4096 := by omega
  have hsplit : i / 4096 * 4096 + i % 4096 = i := by omega
  have hq := hbytes (i % 4096) (Nat.mod_lt _ (by decide)) (by omega)
  rw [hsplit] at hq
  rw [hs.userByte hx (hpin.res hx), hoff]
  exact ⟨_, rfl, hq⟩

/-- Until the last page of the file comes, its place is not a clean one. -/
def StillUnclean (p : Nat) (t : TaskInfo) (it : Nat) (own : Owners) (s : State) : Prop :=
  (∀ a, s.kernMemCurr ≤ a → byteAt (s.mem a) (filesz t % 4096) ≠ 0) ∧
    (it ≤ filesz t → ∀ k, own k = some (p, some (pathOf (t.entryAddr + filesz t))) →
      byteAt (s.mem (s.pages k).kva) (filesz t % 4096) ≠ 0)

/-- A page that is loaded leaves the place unclean. -/
theorem StillUnclean.step {r : Nat × State} {c : Nat → Pte} (hj : StillUnclean p t it own s)
    (ht : Loadable root t) (hmem : filesz t < t.memsz) (htail : ¬TailCleared t)
    (hit : it % 4096 = 0) (hpin : Pinned own s p)
    (hp : Paged root own (t.entryAddr + it) p s own' x r)
    (hc : ∀ o, byteAt c o = pageContent card behind t it (byteAt (r.2.mem r.1)) o) :
    (∀ o < 4096, it + o < t.memsz → it + o = filesz t → byteAt c o ≠ 0) ∧
      StillUnclean p t (it + 4096) own' (setContent r.1 c r.2) := by
  have hfull : filesz t % 512 = 0 ∧ filesz t % 4096 ≠ 0 := by
    unfold TailCleared at htail
    omega
  have halign := ht.aligned
  have hlow := ht.low
  have hpin' : Pinned own' r.2 p := hpin.grows hp.grows
  have hr : r.1 < r.2.kernMemCurr := by
    rw [hp.kva]
    exact (hp.sane.shape.frame x (by rw [hp.page]; simp) (hpin'.res hp.page)).2.2
  refine ⟨fun o ho hin hfile => ?_, fun a ha => ?_, fun hle k hk => ?_⟩
  · -- The page is one nobody has had, or one that was there before.
    have hoff : o = filesz t % 4096 := by omega
    rw [hc, pageContent_byte ht hit _ ho, if_pos (by omega), hoff]
    have hpage : pathOf (t.entryAddr + it) = pathOf (t.entryAddr + filesz t) :=
      pathOf_congr (by omega)
    by_cases hhad : ∃ k, own k = some (p, some (pathOf (t.entryAddr + it)))
    · obtain ⟨k, hk⟩ := hhad
      have hkx := hp.sane.shape.path_inj k x p _ (hp.grows.kept k _ hk) hp.page
      have hsame : r.2.pages k = s.pages k :=
        hp.grows.pages k (by rw [hk]; simp) (by rw [hpin k _ hk]; decide)
      rw [hp.kva, ← hkx, hsame, hp.leaves k _ hk rfl]
      rw [hpage] at hk
      exact hj.2 (by omega) k hk
    · obtain ⟨hlo, -, hold⟩ := hp.new fun k hk => hhad ⟨k, hk⟩
      rw [hold]
      exact hj.1 _ hlo
  · have ha' : r.2.kernMemCurr ≤ a := ha
    have hne : a ≠ r.1 := by omega
    have hkeep : (setContent r.1 c r.2).mem a = r.2.mem a := by
      change (fun i => if a = r.1 then c i else r.2.mem a i) = _
      funext i
      rw [if_neg hne]
    rw [hkeep, hp.free a ha']
    exact hj.1 a (hp.kern.trans ha')
  · have hne : pathOf (t.entryAddr + filesz t) ≠ pathOf (t.entryAddr + it) := by
      intro hpath
      have hpage := pathOf_inj (by omega) (by omega) hpath
      omega
    rcases hp.only k _ hk rfl with hk | hcon
    · rw [hp.keeps hpin c hk hne]
      exact hj.2 (by omega) k hk
    · exact absurd hcon hne

/-! ## Enough pages -/

/-- The pages that are left are read off the pool. -/
theorem Spare.same {n : Nat} {s' : State} (h : Spare n p s) (hprocs : s'.procs = s.procs)
    (hid : s'.pageId = s.pageId) (hst : ∀ k, (s'.pages k).status = (s.pages k).status)
    (hkern : s'.kernMemCurr = s.kernMemCurr) : Spare n p s' := by
  obtain ⟨hb, ha, hheap⟩ := h
  unfold Ahead at ha
  unfold nextPage at hheap
  refine ⟨?_, ?_, ?_⟩
  · rw [hprocs]
    exact hb
  · unfold Ahead
    simp only [hid, hst]
    exact ha
  · unfold nextPage
    rw [hkern]
    exact hheap

/-- A page less is left. -/
theorem allocPagetable_spare {n : Nat} (h : Spare (n + 1) p s) (st : PageStatus) :
    Holds (fun _ => False) (fun r => Spare n p r.2) (allocPagetable p st s) := by
  obtain ⟨r, halloc, htook⟩ := allocPagetable_took h st
  rw [halloc]
  exact htook.spare

/-- A table may take one of those left. -/
theorem tableAt_spare {n d i : Nat} (h : Spare (n + 1) p s) :
    Holds (fun _ => False) (fun r => Spare n p r.2) (tableAt p d i s) := by
  unfold tableAt
  split_ifs
  · exact h.less
  · exact (allocPagetable_spare h .unswapable).bind fun r hr => hr.same rfl rfl (fun _ => rfl) rfl

/-- A page takes two tables at most. -/
theorem allocPageHelper_spare {n va : Nat} (h : Spare (n + 3) p s) :
    Holds (fun _ => False) (fun r => Spare n p r.2) (allocPageHelper va p .unswapable s) := by
  unfold allocPageHelper
  refine (tableAt_spare h).bind fun r hr => (tableAt_spare hr).bind fun q hq => ?_
  obtain ⟨third, s₂⟩ := q
  simp only at hq ⊢
  split_ifs
  · exact hq.less
  · refine (allocPagetable_spare hq .unswapable).bind fun u hu => ?_
    refine hu.same rfl rfl (fun k => ?_) rfl
    by_cases hk : k = u.1
    · simp [modifyWord, setWord, setPage, hk]
    · simp [modifyWord, setWord, setPage, hk]

/-- The loop over the pages returns while pages are left, by induction on the rounds. -/
theorem loadLoop_spare : ∀ (n m it block : Nat) (s : State), t.memsz - it < n →
    t.memsz ≤ it + 4096 * m → Spare (3 * m) p s →
      Holds (fun _ => False) (fun _ => True) (loadLoop card behind p t n it block s) := by
  intro n
  induction n with
  | zero => exact fun m it block s hn _ _ => absurd hn (Nat.not_lt_zero _)
  | succ n ih =>
      intro m it block s hn hm hspare
      unfold loadLoop
      by_cases hlt : it < t.memsz
      · rw [if_pos hlt]
        cases m with
        | zero => omega
        | succ m =>
            refine (allocPageHelper_spare hspare).bind fun r hr => ?_
            obtain ⟨kva, s₁⟩ := r
            simp only at hr ⊢
            split_ifs
            · exact ih m _ _ _ (by omega) (by omega) (hr.same rfl rfl (fun _ => rfl) rfl)
            · exact ih m _ _ _ (by omega) (by omega) (hr.same rfl rfl (fun _ => rfl) rfl)
      · rw [if_neg hlt]
        trivial

/-- With three pages for each page of the program, it is loaded. -/
theorem loadTask_spare (card behind : Nat → UInt8)
    (h : Spare (3 * ((t.memsz + 4095) / 4096)) p s) :
    ∃ s', loadTask card behind p t s = .ok s' := by
  have hpages : t.memsz ≤ 0 + 4096 * ((t.memsz + 4095) / 4096) := by omega
  have hload : Holds (fun _ => False) (fun _ => True) (loadTask card behind p t s) :=
    loadLoop_spare (t.memsz + 1) _ 0 t.beginBlock s (by omega) hpages h
  obtain ⟨s', hs', -⟩ := hload.exists_ok fun _ h _ => h
  exact ⟨s', hs'⟩

/-! ## The image -/

/-- Memory that is free afterwards has not been touched. -/
theorem doExec_free {root : Nat → Pte} {own : Owners} (hs : Sane root own s) (p : Nat)
    (stack args : Nat → Pte) (hstack : User root (vpn2 (userStackAddr - 4096))) :
    Holds AnyStop (fun s' => s.kernMemCurr ≤ s'.kernMemCurr ∧
      ∀ a, s'.kernMemCurr ≤ a → s'.mem a = s.mem a) (doExec p stack args [] s) := by
  rw [doExec_eq]
  unfold execStack
  have hnone : Pinned (drop own p) (setProc p ⟨true, 0, 0, maxPagetableNum, []⟩ s) p := by
    intro x r hx
    exact absurd rfl (drop_eq_some.mp hx).2
  rw [bind_assoc]
  refine Holds.bind ((doExec_started hs p).both
    (allocPagetable_bare (reset_sane hs p).shape hnone .unswapable)) fun r hA => ?_
  obtain ⟨hA, hbare⟩ := hA
  have hlo : s.kernMemCurr ≤ (r.2.pages r.1).kva := hbare.kva.1
  have hhi := hbare.kva.2
  have hmem : r.2.mem = s.mem := hbare.mem
  rw [bind_assoc]
  refine Holds.bind ((stack_page hA.sane p stack).both
    (allocPagetable_bare hA.sane.shape hA.pinned .unswapable)) fun r₂ hB => ?_
  obtain ⟨⟨hs₂, hg₂, -⟩, hbare₂⟩ := hB
  have hd₂ := hg₂.kept _ _ hA.dir
  have hpin₂ := hA.pinned.grows hg₂
  have hlo₂ : r.2.kernMemCurr ≤ (r₂.2.pages r₂.1).kva := hbare₂.kva.1
  have hhi₂ := hbare₂.kva.2
  refine Holds.bind (allocPageHelper_paged hs₂ hd₂ hstack hpin₂) fun r₃ hC => ?_
  obtain ⟨own₃, k, hP⟩ := hC
  have hkern : r₂.2.kernMemCurr ≤ r₃.2.kernMemCurr := hP.kern
  have hpin₃ : Pinned own₃ r₃.2 p := hpin₂.grows hP.grows
  have hk : r₃.1 < r₃.2.kernMemCurr := by
    rw [hP.kva]
    exact (hP.sane.shape.frame k (by rw [hP.page]; simp) (hpin₃.res hP.page)).2.2
  change s.kernMemCurr ≤ r₃.2.kernMemCurr ∧
    ∀ a, r₃.2.kernMemCurr ≤ a → (setContent r₃.1 args r₃.2).mem a = s.mem a
  refine ⟨by omega, fun a ha => ?_⟩
  have hargs : (setContent r₃.1 args r₃.2).mem a = r₃.2.mem a := by
    funext j
    exact if_neg (by omega)
  rw [hargs, hP.free a ha]
  funext j
  have h1 : a ≠ (r₂.2.pages r₂.1).kva := by omega
  have h2 : a ≠ (r.2.pages r.1).kva := by omega
  simp only [setContent, if_neg h1, hbare₂.mem]
  simp [sharePgtable, clearPgdir, setContent, setProc, h2, hmem]

/-- **The loaded image.**  In a process that has just been made, whatever memory held before,
`load_task_img` returns if there are enough pages, and leaves the bytes of the file with zeros
behind them if its last step is not a full one that ends within a page of the program; and only
then, where memory is not clean. -/
theorem load_task_img_image {s₀ s s₁ : State} (hboot : Booted s₀) {es : List Event}
    (hes : ∀ e ∈ es, UserEvent (s₀.mem (pa2kva pgdirPa)) e) (hrun : run handle es s₀ = .ok s)
    {stack args : Nat → Pte} (hexec : doExec p stack args [] s = .ok s₁)
    (huser : UserEvent (s₀.mem (pa2kva pgdirPa)) (.exec p stack args []))
    (ht : Loadable (s₀.mem (pa2kva pgdirPa)) t) (card behind : Nat → UInt8) :
    (Spare (3 * ((t.memsz + 4095) / 4096)) p s₁ → ∃ s₂, loadTask card behind p t s₁ = .ok s₂) ∧
    ∀ s₂, loadTask card behind p t s₁ = .ok s₂ →
      (TailCleared t → LoadedImage card p t s₂) ∧
      (Unclean p (t.entryAddr + filesz t) s₁ → (LoadedImage card p t s₂ ↔ TailCleared t)) := by
  refine ⟨loadTask_spare card behind, fun s₂ hload => ?_⟩
  obtain ⟨⟨own, hsane, -⟩, -⟩ := run_good hboot hes hrun
  obtain ⟨own₁, x, k, hsane₁, hpin, hx, -⟩ :=
    (doExec_stack hsane p stack args huser.1 huser.2).of_ok hexec
  have hblock : 0 < filesz t → t.beginBlock = t.beginBlock + 0 / 512 := fun _ => rfl
  have hcleared : TailCleared t → LoadedImage card p t s₂ := by
    intro hclear i hi
    have hnone : LoadedTo (fun i b => b = fileByte card t i) p t own₁ 0 s₁ := nofun
    obtain ⟨own₂, hsane₂, hpin₂, hloaded⟩ := (loadLoop_loaded (J := fun _ _ _ => True) ht
      (fun hit _ _ _ _ _ hc =>
        ⟨fun o ho hin => (hc o).trans (pageContent_cleared ht hclear hit _ ho hin), trivial⟩)
      (t.memsz + 1) 0 t.beginBlock own₁ s₁ hsane₁ hx hpin rfl hblock trivial hnone).of_ok hload
    obtain ⟨b, hb, hfile⟩ := hloaded.userByte hsane₂.shape hpin₂ ht hi
    rw [hb, hfile]
  refine ⟨hcleared, fun hunclean => ⟨fun himage => ?_, hcleared⟩⟩
  by_contra htail
  have hmem : filesz t < t.memsz := by
    have := ht.size
    unfold TailCleared at htail
    omega
  have hoff : (t.entryAddr + filesz t) % 4096 = filesz t % 4096 := by
    have := ht.aligned
    omega
  have hstart : StillUnclean p t 0 own₁ s₁ := by
    obtain ⟨hfree, hthere⟩ := hunclean
    rw [hoff] at hfree
    refine ⟨hfree, fun _ k hk hcon => hthere ?_⟩
    rw [hsane₁.shape.userByte hk (hpin.res hk), hoff, hcon]
  have hnone : LoadedTo (fun i b => i = filesz t → b ≠ 0) p t own₁ 0 s₁ := nofun
  obtain ⟨own₂, hsane₂, hpin₂, hloaded⟩ := (loadLoop_loaded (J := StillUnclean p t) ht
    (fun hit _ _ hpin hp hj hc => hj.step ht hmem htail hit hpin hp hc)
    (t.memsz + 1) 0 t.beginBlock own₁ s₁ hsane₁ hx hpin rfl hblock hstart hnone).of_ok hload
  obtain ⟨b, hb, hne⟩ := hloaded.userByte hsane₂.shape hpin₂ ht hmem
  rw [himage _ hmem] at hb
  have hzero : fileByte card t (filesz t) = 0 := if_neg (lt_irrefl _)
  cases hb
  exact hne rfl hzero

/-- A program with a file of `size` bytes from byte 3 of sector 1 on. -/
def program (size memsz : Nat) : TaskInfo :=
  ⟨1, (515 + size) / 512, 3, (515 + size) % 512, memsz, 0x10000, []⟩

/-- Memory that nobody has cleared. -/
def usedState : State :=
  { bootState with mem := fun a i => if freememKernel ≤ a then ⟨0, 1⟩ else setupVm a i }

/-- The used memory is one to boot with. -/
theorem usedState_booted : Booted usedState := ⟨fun _ => rfl, rfl, rfl, rfl, fun _ => rfl, rfl⟩

/-- The file of the sample program. -/
theorem filesz_program {size memsz : Nat} (h : size < 4096) :
    filesz (program size memsz) = size := by
  unfold filesz endAddr beginAddr program
  simp only
  omega

/-- The sample program can be loaded. -/
theorem program_loadable {size memsz : Nat} (h : size ≤ memsz) (hmem : memsz < 4096) :
    Loadable (usedState.mem (pa2kva pgdirPa)) (program size memsz) := by
  have hroot : User (usedState.mem (pa2kva pgdirPa)) 0 := by decide +kernel
  have hlow : (program size memsz).entryAddr = 0x10000 := rfl
  have hmemsz : (program size memsz).memsz = memsz := rfl
  have hoffset : (program size memsz).beginOffset = 3 := rfl
  refine ⟨?_, ?_, ?_, fun i hi => ?_, ?_, ?_, ?_⟩
  · rw [hlow]
  · rw [hoffset]
    decide
  · rw [hlow, hmemsz]
    omega
  · rw [hmemsz] at hi
    have hvpn : vpn2 (0x10000 + i) = 0 := by
      unfold vpn2
      omega
    rw [hlow, hvpn]
    exact hroot
  · rw [filesz_program (by omega), hmemsz]
    exact h
  · change 1 * 512 + 3 ≤ (515 + size) / 512 * 512 + (515 + size) % 512
    omega
  · change (515 + size) / 512 * 512 + (515 + size) % 512 < 2 ^ 32
    omega

/-- No page of the used memory holds a zero at its place. -/
theorem usedState_unclean {s₁ : State} (hexec : doExec 1 blank blank [] usedState = .ok s₁)
    (hnone : userByte 1 (0x10000 + 512) s₁ ≠ some 0) : Unclean 1 (0x10000 + 512) s₁ := by
  have hempty : ∀ e ∈ ([] : List Event), UserEvent (usedState.mem (pa2kva pgdirPa)) e := nofun
  obtain ⟨⟨own, hsane, -⟩, -⟩ := run_good usedState_booted hempty rfl
  have hstack : User (usedState.mem (pa2kva pgdirPa)) (vpn2 (userStackAddr - 4096)) := by
    decide +kernel
  obtain ⟨hle, hfree⟩ := (doExec_free hsane 1 blank blank hstack).of_ok hexec
  refine ⟨fun a ha => ?_, hnone⟩
  have hused : usedState.mem a = fun _ => ⟨0, 1⟩ := by
    funext i
    exact if_pos (hle.trans ha)
  rw [hfree a ha, hused]
  decide

/-- A program that is loaded as it should be, and one that is not. -/
theorem load_task_img_image_used : ∃ s₁ s₂ s₃, doExec 1 blank blank [] usedState = .ok s₁ ∧
    loadTask (fun i => UInt8.ofNat i) (fun _ => 9) 1 (program 4 601) s₁ = .ok s₂ ∧
    LoadedImage (fun i => UInt8.ofNat i) 1 (program 4 601) s₂ ∧
    loadTask (fun i => UInt8.ofNat i) (fun _ => 9) 1 (program 512 513) s₁ = .ok s₃ ∧
    Unclean 1 (0x10000 + 512) s₁ ∧
    ¬LoadedImage (fun i => UInt8.ofNat i) 1 (program 512 513) s₃ := by
  have hok : returns (fun s₁ => userByte 1 (0x10000 + 512) s₁ ≠ some 0 ∧
      returns (fun _ => True)
        (loadTask (fun i => UInt8.ofNat i) (fun _ => 9) 1 (program 4 601) s₁) = true ∧
      returns (fun _ => True)
        (loadTask (fun i => UInt8.ofNat i) (fun _ => 9) 1 (program 512 513) s₁) = true)
      (doExec 1 blank blank [] usedState) = true := by decide +kernel
  obtain ⟨s₁, hexec, hthere, hshort, hfull⟩ := exists_of_returns hok
  obtain ⟨s₂, hshort, -⟩ := exists_of_returns hshort
  obtain ⟨s₃, hfull, -⟩ := exists_of_returns hfull
  have hnone : ∀ e ∈ ([] : List Event), UserEvent (usedState.mem (pa2kva pgdirPa)) e := nofun
  have huser : UserEvent (usedState.mem (pa2kva pgdirPa)) (.exec 1 blank blank []) := by
    decide +kernel
  have hunclean := usedState_unclean hexec hthere
  refine ⟨s₁, s₂, s₃, hexec, hshort, ?_, hfull, hunclean, fun himage => ?_⟩
  · exact ((load_task_img_image usedState_booted hnone rfl hexec huser
      (program_loadable (by decide) (by decide)) _ _).2 s₂ hshort).1 (by decide)
  · have hiff := ((load_task_img_image usedState_booted hnone rfl hexec huser
      (program_loadable (by decide) (by decide)) _ _).2 s₃ hfull).2
    have hfile : (program 512 513).entryAddr + filesz (program 512 513) = 0x10000 + 512 := by decide
    rw [hfile] at hiff
    exact absurd ((hiff hunclean).1 himage) (by decide)

/-- The file ends with a full step, and the byte behind it is what was in memory. -/
theorem full_step_keeps_memory : ∃ s₁ s₂, Booted usedState ∧
    UserEvent (usedState.mem (pa2kva pgdirPa)) (.exec 1 blank blank []) ∧
    doExec 1 blank blank [] usedState = .ok s₁ ∧
    Loadable (usedState.mem (pa2kva pgdirPa)) (program 512 513) ∧
    loadTask (fun i => UInt8.ofNat i) (fun _ => 9) 1 (program 512 513) s₁ = .ok s₂ ∧
    userByte 1 (0x10000 + 512) s₂ = some 1 ∧
    fileByte (fun i => UInt8.ofNat i) (program 512 513) 512 = 0 := by
  have hok : returns (fun s₁ => returns (fun s₂ => userByte 1 (0x10000 + 512) s₂ = some 1)
      (loadTask (fun i => UInt8.ofNat i) (fun _ => 9) 1 (program 512 513) s₁) = true)
      (doExec 1 blank blank [] usedState) = true := by decide +kernel
  obtain ⟨s₁, hexec, hload⟩ := exists_of_returns hok
  obtain ⟨s₂, hload, hbyte⟩ := exists_of_returns hload
  exact ⟨s₁, s₂, usedState_booted, by decide +kernel, hexec,
    program_loadable (by decide) (by decide), hload, hbyte, by decide⟩

end Mm
