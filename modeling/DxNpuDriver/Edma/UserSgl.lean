import DxNpuDriver.Edma.Pinned
import DxNpuDriver.Lib.Paging

/-! The table of a user buffer (`dx_sgdma.c`).

`Pinned` has what a mapping takes and gives back; here is the table it fills. The number of its
entries comes from rounding the ends of the buffer, in 64 bits of which 32 are kept, and their
lengths from a loop in 32 bits that runs as often as there are entries and looks only
afterwards whether the buffer is used up. `Paging` cuts a range along pages; `split_exact` says
that the mapping does so. -/
namespace DxNpuDriver.Edma.UserSgl
open Pinned Paging

/-- `struct scatterlist`, as `sg_set_page` fills it. -/
structure Entry where
  page : Nat
  length : BitVec 32
  offset : BitVec 32

/-- The part of the buffer that an entry has. -/
def Entry.piece (e : Entry) : Piece := ⟨e.page, e.offset.toNat, e.length.toNat⟩

section PageSize
variable (pageShift : Nat)

/-- `offset_in_page`. -/
def offsetInPage (buf : BitVec 64) : BitVec 32 := (buf &&& ~~~pageMask pageShift).setWidth 32

/-- `nbytes`, the smaller one as `unsigned int`. -/
def nbytes (buf len : BitVec 64) : BitVec 32 :=
  let rest := (pageSize pageShift).setWidth 32 - offsetInPage pageShift buf
  if rest < len.setWidth 32 then rest else len.setWidth 32

/-- The loop that fills the table, page by page, and what it leaves of `len`. -/
def fillTable : List Nat → BitVec 64 → BitVec 64 → List Entry × BitVec 64
  | [], _, len => ([], len)
  | page :: pages, buf, len =>
    let n := nbytes pageShift buf len
    let (table, left) := fillTable pages (buf + n.setWidth 64) (len - n.setWidth 64)
    (⟨page, n, offsetInPage pageShift buf⟩ :: table, left)

/-- The table that a mapping leaves. -/
def table (cb : Cb) (pages : List Nat) : List Entry := (fillTable pageShift pages cb.buf cb.len).1

/-- `get_user_pages_fast` pins the pages from the buffer's first one on, of which `frame` says
which they are. -/
def userPages (frame : Nat → Nat) (cb : Cb) : List Nat :=
  (List.range (pagesNr pageShift cb)).map fun i => frame (cb.buf.toNat / 2 ^ pageShift + i)

/-- What is left of the buffer is what `Pinned` tests. -/
theorem fillTable_left (pages : List Nat) (buf len : BitVec 64) :
    (fillTable pageShift pages buf len).2 = leftLen pageShift pages.length buf len := by
  induction pages generalizing buf len with
  | nil => rfl
  | cons page pages ih => exact ih _ _

/-! ### The arithmetic of a page -/

variable {pageShift} (hshift : pageShift < 32)
include hshift

theorem toNat_pageSize : (pageSize pageShift).toNat = 2 ^ pageShift := by
  have hlt : 2 ^ pageShift < 2 ^ 64 := Nat.pow_lt_pow_right (by decide) (by omega)
  rw [pageSize, BitVec.natCast_eq_ofNat, BitVec.toNat_ofNat, Nat.one_shiftLeft,
    Nat.mod_eq_of_lt hlt]

theorem toNat_in_page (buf : BitVec 64) :
    (buf &&& ~~~pageMask pageShift).toNat = buf.toNat % 2 ^ pageShift := by
  have hone : (pageSize pageShift - 1).toNat = 2 ^ pageShift - 1 := by
    have hsize := toNat_pageSize hshift
    have hpos := Nat.two_pow_pos pageShift
    have hlt : 2 ^ pageShift < 2 ^ 64 := Nat.pow_lt_pow_right (by decide) (by omega)
    have h1 : (1 : BitVec 64).toNat = 1 := rfl
    rw [BitVec.toNat_sub, hsize, h1]
    omega
  rw [pageMask, BitVec.not_not, BitVec.toNat_and, hone, Nat.and_two_pow_sub_one_eq_mod]

/-- The two parts of an address. -/
theorem toNat_page (buf : BitVec 64) :
    (buf &&& pageMask pageShift).toNat = buf.toNat - buf.toNat % 2 ^ pageShift := by
  have hsum : (buf &&& ~~~pageMask pageShift) + (buf &&& pageMask pageShift) = buf := by
    rw [BitVec.add_eq_or_of_and_eq_zero]
    · ext i hi
      cases h : (pageMask pageShift)[i] <;> simp [h]
    · ext i hi
      cases h : (pageMask pageShift)[i] <;> simp [h]
  have hle := Nat.mod_le buf.toNat (2 ^ pageShift)
  have hbuf := buf.isLt
  have hpage : buf &&& pageMask pageShift = buf - (buf &&& ~~~pageMask pageShift) :=
    BitVec.eq_sub_iff_add_eq.mpr (by rw [BitVec.add_comm, hsum])
  rw [hpage, BitVec.toNat_sub, toNat_in_page hshift]
  omega

theorem toNat_offsetInPage (buf : BitVec 64) :
    (offsetInPage pageShift buf).toNat = buf.toNat % 2 ^ pageShift := by
  have hlt : 2 ^ pageShift < 2 ^ 32 := Nat.pow_lt_pow_right (by decide) hshift
  have hmod := Nat.mod_lt buf.toNat (Nat.two_pow_pos pageShift)
  rw [offsetInPage, BitVec.toNat_setWidth, toNat_in_page hshift, Nat.mod_eq_of_lt (by omega)]

theorem toNat_nbytes (buf : BitVec 64) {len : BitVec 64} (hlen : len.toNat < 2 ^ 32) :
    (nbytes pageShift buf len).toNat =
      min (2 ^ pageShift - buf.toNat % 2 ^ pageShift) len.toNat := by
  have hlt : 2 ^ pageShift < 2 ^ 32 := Nat.pow_lt_pow_right (by decide) hshift
  have hmod := Nat.mod_lt buf.toNat (Nat.two_pow_pos pageShift)
  have hrest : ((pageSize pageShift).setWidth 32 - offsetInPage pageShift buf).toNat =
      2 ^ pageShift - buf.toNat % 2 ^ pageShift := by
    rw [BitVec.toNat_sub, toNat_offsetInPage hshift, BitVec.toNat_setWidth, toNat_pageSize hshift]
    omega
  have hkept : (len.setWidth 32).toNat = len.toNat := by
    rw [BitVec.toNat_setWidth, Nat.mod_eq_of_lt hlen]
  unfold nbytes
  simp only [BitVec.lt_def, hrest, hkept]
  split
  · rw [hrest]
    omega
  · rw [hkept]
    omega

/-- `pages_nr` is the number of pages that the buffer touches, by rounding. -/
theorem pagesNr_eq {cb : Cb} (hlen : cb.len.toNat < 2 ^ 32)
    (hend : cb.buf.toNat + cb.len.toNat + 2 ^ pageShift < 2 ^ 64) :
    pagesNr pageShift cb = count (2 ^ pageShift) cb.buf.toNat cb.len.toNat := by
  have hpos := Nat.two_pow_pos pageShift
  have hmod := Nat.mod_lt cb.buf.toNat hpos
  have hle := Nat.mod_le cb.buf.toNat (2 ^ pageShift)
  have h1 : (1 : BitVec 64).toNat = 1 := rfl
  have hbytes : (cb.buf + cb.len + pageSize pageShift - 1 - (cb.buf &&& pageMask pageShift)).toNat =
      cb.buf.toNat % 2 ^ pageShift + cb.len.toNat + 2 ^ pageShift - 1 := by
    rw [BitVec.toNat_sub, BitVec.toNat_sub, BitVec.toNat_add, BitVec.toNat_add, toNat_page hshift,
      toNat_pageSize hshift, h1]
    omega
  rw [pagesNr, BitVec.toNat_setWidth, BitVec.toNat_ushiftRight, hbytes, Nat.shiftRight_eq_div_pow,
    count]
  -- a page has at least one byte
  apply Nat.mod_eq_of_lt
  apply (Nat.div_lt_iff_lt_mul hpos).mpr
  omega

/-! ### The table -/

/-- The loop cuts what it is given, as long as there are pages. -/
theorem fillTable_cut (frame : Nat → Nat) {k : Nat} {buf len : BitVec 64}
    (hlen : len.toNat < 2 ^ 32) (hend : buf.toNat + len.toNat < 2 ^ 64)
    (hk : Needed (2 ^ pageShift) k buf.toNat len.toNat) :
    let filled := fillTable pageShift
      ((List.range k).map fun i => frame (buf.toNat / 2 ^ pageShift + i)) buf len
    filled.1.map Entry.piece = cut (2 ^ pageShift) frame k buf.toNat len.toNat ∧
      filled.2.toNat = rest (2 ^ pageShift) k buf.toNat len.toNat := by
  have hpos := Nat.two_pow_pos pageShift
  induction k generalizing buf len with
  | zero => exact ⟨rfl, rfl⟩
  | succ k ih =>
    obtain ⟨hneeded, hpage⟩ := hk.next hpos
    have hn := toNat_nbytes hshift buf hlen
    have hwide : ((nbytes pageShift buf len).setWidth 64).toNat = (nbytes pageShift buf len).toNat :=
      BitVec.toNat_setWidth_of_le (by decide)
    have hbuf : (buf + (nbytes pageShift buf len).setWidth 64).toNat =
        buf.toNat + min (2 ^ pageShift - buf.toNat % 2 ^ pageShift) len.toNat := by
      rw [BitVec.toNat_add, hwide, hn]
      omega
    have hleft : (len - (nbytes pageShift buf len).setWidth 64).toNat =
        len.toNat - min (2 ^ pageShift - buf.toNat % 2 ^ pageShift) len.toNat := by
      rw [BitVec.toNat_sub, hwide, hn]
      omega
    rw [← hbuf, ← hleft] at hneeded
    have hfollowing := ih (by omega) (by omega) hneeded
    rw [hbuf, hleft] at hfollowing
    have hpages : (List.range k).map (fun i => frame (buf.toNat / 2 ^ pageShift + (i + 1))) =
        (List.range k).map fun i => frame ((buf.toNat +
          min (2 ^ pageShift - buf.toNat % 2 ^ pageShift) len.toNat) / 2 ^ pageShift + i) := by
      refine List.map_congr_left fun i hi => ?_
      have hk : 0 < k := by
        rw [List.mem_range] at hi
        omega
      rw [hpage hk, Nat.mul_div_cancel_left _ hpos, Nat.add_assoc, Nat.add_comm 1]
    rw [← hpages] at hfollowing
    obtain ⟨htable, hrest⟩ := hfollowing
    rw [List.range_succ_eq_map, List.map_cons, List.map_map]
    refine ⟨?_, hrest⟩
    show Piece.mk _ _ _ :: _ = _
    rw [cut, toNat_offsetInPage hshift, hn]
    congr 1

omit hshift in
theorem length_userPages (frame : Nat → Nat) (cb : Cb) :
    (userPages pageShift frame cb).length = pagesNr pageShift cb := by
  rw [userPages, List.length_map, List.length_range]

/-- There are as many pages as the buffer needs. -/
theorem needed_pagesNr {cb : Cb} (hpos : 0 < cb.len.toNat) (hlen : cb.len.toNat < 2 ^ 32)
    (hend : cb.buf.toNat + cb.len.toNat + 2 ^ pageShift < 2 ^ 64) :
    Needed (2 ^ pageShift) (pagesNr pageShift cb) cb.buf.toNat cb.len.toNat := by
  rw [pagesNr_eq hshift hlen hend]
  exact needed_count hpos

/-- So the table is the buffer cut along its pages, and nothing is left of it. -/
theorem table_cut (frame : Nat → Nat) {cb : Cb} (hpos : 0 < cb.len.toNat)
    (hlen : cb.len.toNat < 2 ^ 32)
    (hend : cb.buf.toNat + cb.len.toNat + 2 ^ pageShift < 2 ^ 64) :
    (table pageShift cb (userPages pageShift frame cb)).map Entry.piece =
        cut (2 ^ pageShift) frame (pagesNr pageShift cb) cb.buf.toNat cb.len.toNat ∧
      leftLen pageShift (pagesNr pageShift cb) cb.buf cb.len = 0 := by
  have hP := Nat.two_pow_pos pageShift
  have hneeded := needed_pagesNr hshift hpos hlen hend
  obtain ⟨hcut, hrest⟩ := fillTable_cut hshift frame hlen (by omega) hneeded
  refine ⟨hcut, ?_⟩
  rw [← length_userPages frame cb, ← fillTable_left]
  apply BitVec.eq_of_toNat_eq
  rw [userPages, hrest, (hneeded.bytes (f := frame) hP).2]
  rfl

/-! ### The mapping -/

omit hshift in
/-- Pages that are distinct are so two by two in a row. -/
theorem duplicate_eq_false {pages : List Nat} (h : pages.Nodup) : duplicate pages = false := by
  induction pages with
  | nil => rfl
  | cons p pages ih =>
    cases pages with
    | nil => rfl
    | cons q pages =>
      have hne : p ≠ q := by
        rintro rfl
        exact (List.nodup_cons.mp h).1 List.mem_cons_self
      rw [duplicate, ih (List.nodup_cons.mp h).2, Bool.or_false, decide_eq_false hne]

omit hshift in
/-- A buffer is mapped when all its pages are pinned and distinct and hold it. -/
theorem mapUserBufToSgl_all {k : Kernel} {cb : Cb} {pages : List Nat}
    (hasked : pagesNr pageShift cb ≠ 0) (htable : k.sgAllocTable = true)
    (harray : k.pageArray = true) (hpinned : k.getUserPages = .pinned pages)
    (hlength : pages.length = pagesNr pageShift cb) (hdistinct : pages.Nodup)
    (hleft : leftLen pageShift (pagesNr pageShift cb) cb.buf cb.len = 0) :
    mapUserBufToSgl pageShift k cb =
      (0, {cb with pages := some pages, pagesNr := pagesNr pageShift cb}, taken pages) := by
  have hall : pages.take (pagesNr pageShift cb) = pages := by rw [← hlength, List.take_length]
  rw [mapUserBufToSgl, if_neg hasked, htable, harray, hpinned]
  simp only [Bool.true_eq_false, if_false, hall, mapPages, hlength, ne_eq, not_true,
    duplicate_eq_false hdistinct, Bool.false_eq_true, hleft, taken]

/-- The buffer is mapped to a table that splits it along its pages. -/
structure Split (pageShift : Nat) (frame : Nat → Nat) (k : Kernel) (cb : Cb) : Prop where
  /-- As many entries are allocated as the buffer touches pages. -/
  allocated : pagesNr pageShift cb = (touched (2 ^ pageShift) cb.buf.toNat cb.len.toNat).card
  mapped : (mapUserBufToSgl pageShift k cb).1 = 0
  pages : (mapUserBufToSgl pageShift k cb).2.1.pages = some (userPages pageShift frame cb)
  entries : (table pageShift cb (userPages pageShift frame cb)).length = pagesNr pageShift cb
  first : ∀ e ∈ (table pageShift cb (userPages pageShift frame cb)).head?,
    e.offset.toNat = cb.buf.toNat % 2 ^ pageShift
  others : ∀ e ∈ (table pageShift cb (userPages pageShift frame cb)).tail, e.offset = 0
  within : ∀ e ∈ table pageShift cb (userPages pageShift frame cb),
    0 < e.length.toNat ∧ e.offset.toNat + e.length.toNat ≤ 2 ^ pageShift
  /-- In their order the entries have the bytes of the buffer, each where its page is. -/
  bytes : (table pageShift cb (userPages pageShift frame cb)).flatMap (fun e => e.piece.bytes) =
    bytes (2 ^ pageShift) frame cb.buf.toNat cb.len.toNat
  /-- Nothing is left for the last test. -/
  left : leftLen pageShift (pagesNr pageShift cb) cb.buf cb.len = 0

/-- **User buffers are split exactly**, when all their pages are pinned and distinct; a page is
smaller than an `unsigned int` can say. -/
theorem split_exact (frame : Nat → Nat) {k : Kernel} {cb : Cb} (hpos : 0 < cb.len.toNat)
    (hlen : cb.len.toNat < 2 ^ 32) (hend : cb.buf.toNat + cb.len.toNat + 2 ^ pageShift < 2 ^ 64)
    (htable : k.sgAllocTable = true) (harray : k.pageArray = true)
    (hpinned : k.getUserPages = .pinned (userPages pageShift frame cb))
    (hdistinct : (userPages pageShift frame cb).Nodup) : Split pageShift frame k cb := by
  have hP := Nat.two_pow_pos pageShift
  have hnr := pagesNr_eq hshift hlen hend
  have hneeded := needed_pagesNr hshift hpos hlen hend
  have hlength : (userPages pageShift frame cb).length = pagesNr pageShift cb :=
    length_userPages frame cb
  obtain ⟨hcut, hleft⟩ := table_cut hshift frame hpos hlen hend
  have hasked : pagesNr pageShift cb ≠ 0 := by
    intro h0
    rw [h0] at hneeded
    exact absurd (hneeded.empty hP) (by omega)
  have hmap := mapUserBufToSgl_all hasked htable harray hpinned hlength hdistinct hleft
  have hmem : ∀ e ∈ table pageShift cb (userPages pageShift frame cb),
      e.piece ∈ cut (2 ^ pageShift) frame (pagesNr pageShift cb) cb.buf.toNat cb.len.toNat := by
    intro e he
    rw [← hcut]
    exact List.mem_map_of_mem he
  constructor
  · rw [hnr, count_eq_card hP hpos]
  · rw [hmap]
  · rw [hmap]
  · rw [← cut_length (2 ^ pageShift) frame (pagesNr pageShift cb) cb.buf.toNat cb.len.toNat, ← hcut,
      List.length_map]
  · intro e he
    refine cut_head (2 ^ pageShift) frame (pagesNr pageShift cb) _ cb.len.toNat e.piece ?_
    rw [← hcut, List.head?_map]
    exact Option.mem_map_of_mem Entry.piece he
  · intro e he
    have hzero := hneeded.tail (f := frame) hP e.piece (by
      rw [← hcut, ← List.map_tail]
      exact List.mem_map_of_mem he)
    exact BitVec.eq_of_toNat_eq hzero
  · intro e he
    exact hneeded.within hP e.piece (hmem e he)
  · rw [← (hneeded.bytes (f := frame) hP).1, ← hcut, List.flatMap_map]
  · exact hleft

end PageSize

/-- A buffer of two pages, of which it has the end of the one and the beginning of the other. -/
theorem split_exact_two : Split 12 (fun page => 7 - page)
    ⟨true, true, .pinned [7, 6]⟩ ⟨4000, 200, none, 0⟩ := by
  have hpages : userPages 12 (fun page => 7 - page) ⟨4000, 200, none, 0⟩ = [7, 6] := by decide
  refine split_exact (by decide) _ (by decide) (by decide) (by decide) rfl rfl ?_ ?_
  · rw [hpages]
  · rw [hpages]
    decide

end DxNpuDriver.Edma.UserSgl
