import Mathlib.Algebra.Ring.Nat
import PagedHeap.Proofs.Disk.Files
import PagedHeap.Proofs.Page.History

/-!
# A volume is an array of pages, while numbers last

Writing a page puts its bytes at their place in the file and touches no others; a gap in front of it
fills with zeros.  As long as the pages can be counted in 32 bits, that makes the file an array that
grows at its end.  The write that fills the last number makes the count start again at zero: the
page just written cannot be read, and appending begins to overwrite pages.
-/

namespace PagedHeap

namespace Medium

variable {m : Medium} {n start i : Nat} {bytes : List UInt8}

theorem byte_add (m : Medium) (n : Nat) {i : Nat} (hi : i < pageSize) :
    m.byte (n * pageSize + i) = (m.block n)[i] := by
  have hdiv : (n * pageSize + i) / pageSize = n := by
    rw [Nat.mul_comm, Nat.mul_add_div (by decide), Nat.div_eq_of_lt hi, Nat.add_zero]
  have hmod : (n * pageSize + i) % pageSize = i := by
    rw [Nat.mul_comm, Nat.mul_add_mod, Nat.mod_eq_of_lt hi]
  simp only [byte, hdiv, hmod]
  rfl

theorem byte_of_length_le (m : Medium) (hi : m.length ≤ i) : m.byte i = 0 := by
  have hlt : i % pageSize < pageSize := Nat.mod_lt i (by decide)
  have hsplit : i / pageSize * pageSize + i % pageSize = i := Nat.div_add_mod' i pageSize
  rw [← hsplit, byte_add m _ hlt]
  exact m.cleared _ _ hlt (by omega)

/-! ## Patching -/

theorem byte_patchBlock (m : Medium) (n : Nat) (hin : start + bytes.length ≤ pageSize) (i : Nat) :
    (m.patchBlock n start bytes).byte i =
      if h : n * pageSize + start ≤ i ∧ i < n * pageSize + start + bytes.length then
        bytes[i - (n * pageSize + start)]
      else m.byte i := by
  have hlt : i % pageSize < pageSize := Nat.mod_lt i (by decide)
  have hsplit : i / pageSize * pageSize + i % pageSize = i := Nat.div_add_mod' i pageSize
  have hblock : (m.patchBlock n start bytes).block (i / pageSize) =
      if n = i / pageSize then (m.block n).overwrite start bytes else m.block (i / pageSize) :=
    blockOf_insert m.blocks n _ _
  have hbyte : (m.patchBlock n start bytes).byte i =
      ((m.patchBlock n start bytes).block (i / pageSize))[i % pageSize] := rfl
  rw [hbyte]
  simp only [hblock]
  by_cases hn : n = i / pageSize
  · subst hn
    simp only [if_true, Image.getElem_overwrite _ _ _ hlt]
    by_cases hmid : start ≤ i % pageSize ∧ i % pageSize < start + bytes.length
    · rw [dif_pos hmid, dif_pos (by omega)]
      congr 1
      omega
    · rw [dif_neg hmid, dif_neg (by omega)]
      rfl
  · have hout : ¬ (n * pageSize + start ≤ i ∧ i < n * pageSize + start + bytes.length) := by
      rintro ⟨hlow, hhigh⟩
      have hdiv : i / pageSize = n := Nat.div_eq_of_lt_le (by omega) (by rw [Nat.succ_mul]; omega)
      exact hn hdiv.symm
    simp only [if_neg hn, dif_neg hout]
    rfl

/-- A patch puts its bytes at their places and touches no others. -/
theorem byte_patch (m : Medium) (start : Nat) (bytes : List UInt8) (i : Nat) :
    (m.patch start bytes).byte i =
      if h : start ≤ i ∧ i - start < bytes.length then bytes[i - start] else m.byte i := by
  induction m, start, bytes using patch.induct with
  | case1 m start =>
    have hout : ¬ (start ≤ i ∧ i - start < ([] : List UInt8).length) := by simp
    rw [patch, dif_neg hout]
  | case2 m start byte rest inBlock chunk ih =>
    have hmod : start % pageSize < pageSize := Nat.mod_lt start (by decide)
    have hstart : start / pageSize * pageSize + start % pageSize = start :=
      Nat.div_add_mod' start pageSize
    have hchunk : start % pageSize + chunk.length ≤ pageSize := by
      simp only [chunk, List.length_take, inBlock]
      omega
    have hlength : chunk.length + ((byte :: rest).drop inBlock).length = (byte :: rest).length := by
      rw [← List.length_append, List.take_append_drop]
    have hstep : m.patch start (byte :: rest) =
        (m.patchBlock (start / pageSize) (start % pageSize) chunk).patch (start + chunk.length)
          ((byte :: rest).drop inBlock) := by
      rw [patch]
    have hbyte := m.byte_patchBlock (start / pageSize) hchunk i
    simp only [hstart] at hbyte
    rw [hstep, ih, hbyte]
    by_cases hback : start + chunk.length ≤ i ∧
        i - (start + chunk.length) < ((byte :: rest).drop inBlock).length
    · -- the byte lies behind the chunk, in a later block
      have hfull : chunk.length = inBlock := by
        have : 0 < ((byte :: rest).drop inBlock).length := by omega
        simp only [chunk, List.length_take]
        rw [List.length_drop] at this
        omega
      rw [dif_pos hback, dif_pos (by omega), List.getElem_drop]
      congr 1
      omega
    · rw [dif_neg hback]
      by_cases hfront : start ≤ i ∧ i < start + chunk.length
      · rw [dif_pos hfront, dif_pos (by omega)]
        exact List.getElem_take
      · rw [dif_neg hfront, dif_neg (by omega)]

theorem length_patch (m : Medium) (start : Nat) (bytes : List UInt8) :
    (m.patch start bytes).length =
      if bytes = [] then m.length else max m.length (start + bytes.length) := by
  induction m, start, bytes using patch.induct with
  | case1 m start => rw [patch, if_pos rfl]
  | case2 m start byte rest inBlock chunk ih =>
    have hmod : start % pageSize < pageSize := Nat.mod_lt start (by decide)
    have hstart : start / pageSize * pageSize + start % pageSize = start :=
      Nat.div_add_mod' start pageSize
    have hlength : chunk.length + ((byte :: rest).drop inBlock).length = (byte :: rest).length := by
      rw [← List.length_append, List.take_append_drop]
    rw [patch, ih, if_neg (List.cons_ne_nil _ _)]
    have hblock : (m.patchBlock (start / pageSize) (start % pageSize) chunk).length =
        max m.length (start + chunk.length) := by simp only [patchBlock, hstart]
    rw [hblock]
    split
    case isTrue hnil =>
      rw [hnil, List.length_nil, Nat.add_zero] at hlength
      rw [hlength]
    case isFalse => omega

/-- Every list of bytes is the content of a file. -/
theorem exists_medium (bytes : List UInt8) :
    ∃ m : Medium, m.length = bytes.length ∧ ∀ i (hi : i < bytes.length), m.byte i = bytes[i] := by
  refine ⟨empty.patch 0 bytes, ?_, fun i hi => ?_⟩
  · rw [length_patch]
    split
    case isTrue hnil => rw [hnil]; rfl
    case isFalse => simp [empty]
  · rw [byte_patch, dif_pos (by omega)]
    rfl

/-! ## Writing blocks -/

theorem byte_writeBlock (m : Medium) (n : Nat) (img : Image) (k : Nat) (hi : i < pageSize) :
    (m.writeBlock n img).byte (k * pageSize + i) =
      if k = n then img[i] else m.byte (k * pageSize + i) := by
  rw [byte_add _ _ hi, byte_add _ _ hi]
  simp only [block_writeBlock]
  by_cases h : n = k
  · simp [h]
  · simp [h, Ne.symm h]

theorem length_writeBlock (m : Medium) (n : Nat) (img : Image) :
    (m.writeBlock n img).length = max m.length ((n + 1) * pageSize) := rfl

theorem pages_writeBlock (m : Medium) (n : Nat) (img : Image) :
    (m.writeBlock n img).length / pageSize = max (m.length / pageSize) (n + 1) := by
  rw [length_writeBlock]
  rcases Nat.le_total m.length ((n + 1) * pageSize) with hle | hle
  · rw [Nat.max_eq_right hle, Nat.mul_div_cancel _ (by decide), Nat.max_eq_right]
    exact Nat.le_trans (Nat.div_le_div_right hle) (Nat.le_of_eq (Nat.mul_div_cancel _ (by decide)))
  · rw [Nat.max_eq_left hle, Nat.max_eq_left]
    exact (Nat.le_div_iff_mul_le (by decide)).mpr hle

end Medium

namespace Volume

/-- The complete pages in the file; unlike the count of pages this is not cut to 32 bits. -/
def fullPages (v : Volume) : Nat :=
  v.medium.length / pageSize

/-- The page that reading a number gives. -/
def shown (v : Volume) (n : UInt32) : Except Error Page :=
  (v.read ⟨v.table, n⟩).map Prod.fst

/-- The bytes of page `n` have been written and no others; holes read as zeros. -/
structure Wrote (v v' : Volume) (n : UInt32) (img : Image) : Prop where
  table_eq : v'.table = v.table
  length_eq : v'.medium.length = max v.medium.length ((n.toNat + 1) * pageSize)
  byte_eq : ∀ k i (hi : i < pageSize), v'.medium.byte (k * pageSize + i) =
    if k = n.toNat then img[i] else v.medium.byte (k * pageSize + i)

/-- The second volume is the first one, seen as an array of pages, with the image at place `n`. -/
structure Laid (v v' : Volume) (n : UInt32) (img : Image) : Prop where
  self : v'.shown n = .ok (Page.clean ⟨v.table, n⟩ img)
  others : ∀ k page, k ≠ n → v.shown k = .ok page → v'.shown k = .ok page
  /-- Between the old end and the page lies what was in the file behind its last complete page. -/
  between : ∀ k : UInt32, v.fullPages ≤ k.toNat → k < n →
    ∃ img', v'.shown k = .ok (Page.clean ⟨v.table, k⟩ img') ∧
      ∀ i (hi : i < pageSize), img'[i] =
        if k.toNat * pageSize + i < v.medium.length then v.medium.byte (k.toNat * pageSize + i)
        else 0
  count : v'.pageCount.toNat = max v.pageCount.toNat (n.toNat + 1)

/-- The page has a number that no complete page had, and the pages that were there are as before. -/
structure Extended (v v' : Volume) (id : PageId) : Prop where
  table_eq : id.table = v.table
  fresh : v.fullPages ≤ id.pageNo.toNat
  kept : ∀ k page, v.shown k = .ok page → v'.shown k = .ok page

variable {v v' : Volume} {n k : UInt32} {img : Image}

theorem toNat_pageCount (v : Volume) : v.pageCount.toNat = v.fullPages % pageBound :=
  UInt32.toNat_ofNat'

theorem shown_eq (v : Volume) (n : UInt32) :
    v.shown n = if n < v.pageCount then .ok (Page.clean ⟨v.table, n⟩ (v.image n))
      else .error (.foreignPage ⟨v.table, n⟩ v.table) := by
  have howns : v.owns ⟨v.table, n⟩ = true := beq_self_eq_true _
  simp only [shown, read, require, contains, howns, Bool.true_and, decide_eq_true_eq]
  split <;> rfl

theorem shown_of_lt (h : n.toNat < v.fullPages % pageBound) :
    v.shown n = .ok (Page.clean ⟨v.table, n⟩ (v.image n)) := by
  rw [shown_eq, if_pos (UInt32.lt_iff_toNat_lt.mpr (v.toNat_pageCount ▸ h))]

theorem lt_of_shown {page : Page} (h : v.shown n = .ok page) :
    n.toNat < v.fullPages % pageBound ∧ page = Page.clean ⟨v.table, n⟩ (v.image n) := by
  rw [shown_eq] at h
  split at h
  case isTrue hlt =>
    exact ⟨v.toNat_pageCount ▸ UInt32.lt_iff_toNat_lt.mp hlt, (Except.ok.inj h).symm⟩
  case isFalse => cases h

/-! ## Writing -/

theorem wrote_write (v : Volume) (n : UInt32) (p : Page) :
    ∃ v', v.write { p with id := ⟨v.table, n⟩ } = .ok v' ∧ Wrote v v' n p.image := by
  have howns : v.owns ({ p with id := ⟨v.table, n⟩ } : Page).id = true := beq_self_eq_true _
  simp only [write, howns, if_true]
  exact ⟨_, rfl, rfl, rfl, fun k i hi => v.medium.byte_writeBlock _ _ k hi⟩

namespace Wrote

theorem image_eq (h : Wrote v v' n img) (k : UInt32) :
    v'.image k = if k = n then img else v.image k := by
  apply Vector.ext
  intro i hi
  have hbyte := h.byte_eq k.toNat i hi
  rw [Medium.byte_add _ _ hi, Medium.byte_add _ _ hi] at hbyte
  rw [image, hbyte]
  by_cases hk : k = n
  · simp [hk]
  · rw [if_neg (fun heq => hk (UInt32.toNat_inj.mp heq)), if_neg hk]
    rfl

theorem fullPages_eq (h : Wrote v v' n img) : v'.fullPages = max v.fullPages (n.toNat + 1) := by
  rw [fullPages, h.length_eq, ← Medium.length_writeBlock v.medium n.toNat img,
    Medium.pages_writeBlock, fullPages]

/-- Behind the last complete page there is what the file held, and zeros after its end. -/
theorem shown_between (h : Wrote v v' n img) (hlt : k < n)
    (hcount : n.toNat < v'.fullPages % pageBound) :
    ∃ img', v'.shown k = .ok (Page.clean ⟨v.table, k⟩ img') ∧
      ∀ i (hi : i < pageSize), img'[i] =
        if k.toNat * pageSize + i < v.medium.length then v.medium.byte (k.toNat * pageSize + i)
        else 0 := by
  have hkn : k.toNat < n.toNat := UInt32.lt_iff_toNat_lt.mp hlt
  refine ⟨v.image k, ?_, fun i hi => ?_⟩
  · rw [shown_of_lt (Nat.lt_trans hkn hcount), h.table_eq, h.image_eq, if_neg (UInt32.ne_of_lt hlt)]
  · have hbyte : (v.image k)[i] = v.medium.byte (k.toNat * pageSize + i) :=
      (v.medium.byte_add _ hi).symm
    rw [hbyte]
    split
    case isTrue => rfl
    case isFalse hbehind => exact v.medium.byte_of_length_le (by omega)

/-- A page that counts before and after the write is shown again. -/
theorem shown_kept (h : Wrote v v' n img) {page : Page} (hne : k ≠ n)
    (hcount : v.fullPages % pageBound ≤ v'.fullPages % pageBound) (hpage : v.shown k = .ok page) :
    v'.shown k = .ok page := by
  obtain ⟨hlt, rfl⟩ := lt_of_shown hpage
  rw [shown_of_lt (Nat.lt_of_lt_of_le hlt hcount), h.table_eq, h.image_eq, if_neg hne]

/-- The write is one into an array of pages once the pages can be counted. -/
theorem laid_of_counted (h : Wrote v v' n img)
    (hcount : v'.fullPages % pageBound = max (v.fullPages % pageBound) (n.toNat + 1)) :
    Laid v v' n img := by
  have hn : n.toNat < v'.fullPages % pageBound := by omega
  exact {
    self := by rw [shown_of_lt hn, h.table_eq, h.image_eq, if_pos rfl]
    others := fun k page hne hpage => h.shown_kept hne (by omega) hpage
    between := fun k _ hlt => h.shown_between hlt hn
    count := by rw [toNat_pageCount, toNat_pageCount, hcount] }

theorem laid_iff (h : Wrote v v' n img) :
    Laid v v' n img ↔ n < v.pageCount ∨ max v.fullPages (n.toNat + 1) < pageBound := by
  have hpages := h.fullPages_eq
  have hnumber : n.toNat < pageBound := n.toNat_lt
  rw [UInt32.lt_iff_toNat_lt, toNat_pageCount]
  constructor
  · intro hlaid
    obtain ⟨hlt, -⟩ := lt_of_shown hlaid.self
    rw [hpages] at hlt
    -- too many pages were there before, and as many count as then, or the last number is taken now
    rcases Nat.lt_or_ge v.fullPages pageBound with hsmall | hlarge
    · refine Or.inr (Nat.lt_of_not_le fun hfull => ?_)
      have hlast : max v.fullPages (n.toNat + 1) = pageBound := by omega
      rw [hlast, Nat.mod_self] at hlt
      exact Nat.not_lt_zero _ hlt
    · rw [Nat.max_eq_left (by omega)] at hlt
      exact Or.inl hlt
  · rintro (hinside | hroom)
    · have hle : v.fullPages % pageBound ≤ v.fullPages := Nat.mod_le _ _
      refine h.laid_of_counted ?_
      rw [hpages, Nat.max_eq_left (by omega), Nat.max_eq_left (by omega)]
    · refine h.laid_of_counted ?_
      rw [hpages, Nat.mod_eq_of_lt hroom, Nat.mod_eq_of_lt (by omega)]

end Wrote

/-- The page with the last number is written behind a single page, and then no page can be read. -/
theorem last_page_lost :
    ∃ v', (format ⟨1⟩ 1).write
        (Page.clean ⟨⟨1⟩, 4294967295⟩ (Edit.imageAfter [.insert [0x65, 0x6e, 0x64]])) = .ok v' ∧
      ¬ Laid (format ⟨1⟩ 1) v' 4294967295 (Edit.imageAfter [.insert [0x65, 0x6e, 0x64]]) ∧
      v'.fullPages = 2 ^ 32 ∧ v'.pageCount = 0 ∧
      ∀ n, v'.shown n = .error (.foreignPage ⟨⟨1⟩, n⟩ ⟨1⟩) := by
  generalize Edit.imageAfter [.insert [0x65, 0x6e, 0x64]] = img
  have hpages : (format ⟨1⟩ 1).fullPages = 1 := by decide
  have htable : (format ⟨1⟩ 1).table = ⟨1⟩ := by decide
  obtain ⟨v', hwrite, hwrote⟩ : ∃ v', (format ⟨1⟩ 1).write (Page.clean ⟨⟨1⟩, 4294967295⟩ img) =
      .ok v' ∧ Wrote (format ⟨1⟩ 1) v' 4294967295 img :=
    (format ⟨1⟩ 1).wrote_write 4294967295 (Page.clean ⟨⟨1⟩, 4294967295⟩ img)
  have hlast : (4294967295 : UInt32).toNat = 4294967295 := rfl
  have hfull : v'.fullPages = 2 ^ 32 := by
    rw [hwrote.fullPages_eq, hpages, hlast]
    rfl
  have hcount : v'.pageCount = 0 := by
    rw [← UInt32.toNat_inj, toNat_pageCount, hfull]
    decide
  refine ⟨v', hwrite, ?_, hfull, hcount, fun n => ?_⟩
  · rw [hwrote.laid_iff, UInt32.lt_iff_toNat_lt, toNat_pageCount, hpages, hlast]
    decide
  · rw [shown_eq, hcount, if_neg (UInt32.not_lt.mpr (UInt32.zero_le)), hwrote.table_eq, htable]

/-! ## Appending -/

theorem wrote_append (v : Volume) :
    ∃ v', v.append = .ok (⟨v.table, v.pageCount⟩, v') ∧ Wrote v v' v.pageCount Image.blank := by
  obtain ⟨v', hwrite, hwrote⟩ := v.wrote_write v.pageCount (Page.empty ⟨v.table, v.pageCount⟩)
  have hwrite' : v.write (Page.empty ⟨v.table, v.pageCount⟩) = .ok v' := hwrite
  refine ⟨v', ?_, hwrote⟩
  simp only [append, hwrite']
  rfl

theorem Wrote.extended_iff (h : Wrote v v' v.pageCount Image.blank) :
    Extended v v' ⟨v.table, v.pageCount⟩ ↔ v.fullPages + 1 < pageBound := by
  have hpages := h.fullPages_eq
  have hcount := v.toNat_pageCount
  have hmod : v.fullPages % pageBound < pageBound := Nat.mod_lt _ (by decide)
  constructor
  · intro hextended
    have hfresh : v.fullPages ≤ v.pageCount.toNat := hextended.fresh
    have hsmall : v.fullPages < pageBound := by omega
    refine Nat.lt_of_not_le fun hfull => ?_
    -- with the last number taken no page counts any more, and the first one did
    have hlast : v'.fullPages = pageBound := by
      rw [hpages, hcount, Nat.mod_eq_of_lt hsmall]
      omega
    have hzero : v.shown 0 = .ok (Page.clean ⟨v.table, 0⟩ (v.image 0)) := by
      refine shown_of_lt ?_
      rw [Nat.mod_eq_of_lt hsmall]
      change 0 < v.fullPages
      have : 1 < pageBound := by decide
      omega
    obtain ⟨hlt, -⟩ := lt_of_shown (hextended.kept 0 _ hzero)
    rw [hlast, Nat.mod_self] at hlt
    exact Nat.not_lt_zero _ hlt
  · intro hroom
    have hnumber : v.pageCount.toNat = v.fullPages := by
      rw [hcount, Nat.mod_eq_of_lt (by omega)]
    refine ⟨rfl, Nat.le_of_eq hnumber.symm, fun k page hpage => ?_⟩
    obtain ⟨hlt, -⟩ := lt_of_shown hpage
    have hne : k ≠ v.pageCount := fun heq => by
      rw [heq, hcount] at hlt
      exact Nat.lt_irrefl _ hlt
    refine h.shown_kept hne ?_ hpage
    rw [hpages, hnumber, Nat.max_eq_right (by omega), Nat.mod_eq_of_lt hroom,
      Nat.mod_eq_of_lt (by omega)]
    omega

/-- Any page can be written to any volume, and only its bytes change.  It is a write into an array of
pages unless the page is a new one and the pages come to 2^32 or more; to append one is to extend
the array as long as the number of the next page is no longer the last. -/
theorem laid_iff_and_extended_iff (v : Volume) :
    (∀ (n : UInt32) (p : Page), ∃ v', v.write { p with id := ⟨v.table, n⟩ } = .ok v' ∧
      Wrote v v' n p.image ∧
      (Laid v v' n p.image ↔ n < v.pageCount ∨ max v.fullPages (n.toNat + 1) < pageBound)) ∧
    ∃ id v', v.append = .ok (id, v') ∧ Wrote v v' id.pageNo Image.blank ∧
      (Extended v v' id ↔ v.fullPages + 1 < pageBound) := by
  constructor
  · intro n p
    obtain ⟨v', hwrite, hwrote⟩ := v.wrote_write n p
    exact ⟨v', hwrite, hwrote, hwrote.laid_iff⟩
  · obtain ⟨v', happend, hwrote⟩ := v.wrote_append
    exact ⟨_, v', happend, hwrote, hwrote.extended_iff⟩

end Volume

end PagedHeap
