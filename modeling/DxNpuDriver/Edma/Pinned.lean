import DxNpuDriver.Edma.Outcome
import DxNpuDriver.Lib.Ledger
import Mathlib.Data.BitVec

/-! The pages of a user buffer and their table (`dx_sgdma.c`).

A transfer of a user buffer pins its pages, keeps them in an array, and gives
`dw_edma_sg_process` a table of them, which that function frees. Both ends have a hole. The
array is freed together with the pages, if there are pages; where none could be pinned it is
left. And the table is freed by a function that some of its callers never come to, or that
returns before its first label (`balanced_iff_tidy`).

What the kernel answers to the mapping is given at the start; what it answers later is on
the path of the program. -/
namespace DxNpuDriver.Edma.Pinned
open Outcome Ledger

def EFAULT : Int := 14
def ENOMEM : Int := 12

/-- What a transfer takes and has to give back: the table of `sg_alloc_table`, the array of
pages, and a reference to a page. -/
inductive Resource where
  | sgTable
  | pageArray
  | page (p : Nat)
  deriving DecidableEq

/-- `struct dx_dma_io_cb`; of the array, the slots that `get_user_pages_fast` has filled. -/
structure Cb where
  buf : BitVec 64
  len : BitVec 64
  pages : Option (List Nat)
  pagesNr : Nat

inductive Gup where
  | error (e : Fin maxErrno)
  /-- The pages in their order, none of them `NULL`; those that were not asked for are not
  pinned. -/
  | pinned (pages : List Nat)

/-- What the kernel answers to the mapping of a buffer. -/
structure Kernel where
  sgAllocTable : Bool
  pageArray : Bool
  getUserPages : Gup

/-- `char_sgdma_unmap_user_buf`, without what it marks dirty. A slot that was not filled
would end the loop. -/
def unmapUserBuf (cb : Cb) : Cb × Log Resource :=
  match cb.pages with
  | none => (cb, [])
  | some pages =>
    if cb.pagesNr = 0 then (cb, [])
    else
      ({cb with pages := none},
        (pages.take cb.pagesNr).map (fun p => .give (.page p)) ++ [.give .pageArray])

/-- From the label `err_out` on. -/
def errOut (rv : Int) (cb : Cb) (log : Log Resource) : Int × Cb × Log Resource :=
  let r := unmapUserBuf cb
  (rv, r.1, log ++ (.give .sgTable :: r.2))

/-- Two pages in a row are the same. -/
def duplicate : List Nat → Bool
  | p :: q :: pages => p = q || duplicate (q :: pages)
  | _ => false

section PageSize
variable (pageShift : Nat)

/-- `PAGE_SIZE`. -/
def pageSize : BitVec 64 := 1 <<< pageShift

/-- `PAGE_MASK`. -/
def pageMask : BitVec 64 := ~~~(pageSize pageShift - 1)

/-- `pages_nr`, an `unsigned int`. -/
def pagesNr (cb : Cb) : Nat :=
  (((cb.buf + cb.len + pageSize pageShift - 1 - (cb.buf &&& pageMask pageShift)) >>>
    pageShift).setWidth 32).toNat

/-- The loop that fills the table: what it leaves of `len`. -/
def leftLen : Nat → BitVec 64 → BitVec 64 → BitVec 64
  | 0, _, len => len
  | n + 1, buf, len =>
    let offset := (buf &&& ~~~pageMask pageShift).setWidth 32
    let rest := (pageSize pageShift).setWidth 32 - offset
    let nbytes : BitVec 32 := if rest < len.setWidth 32 then rest else len.setWidth 32
    leftLen n (buf + nbytes.setWidth 64) (len - nbytes.setWidth 64)

variable (k : Kernel)

/-- The checks of the pages that `get_user_pages_fast` has pinned. -/
def mapPages (cb : Cb) (pages : List Nat) : Int × Cb × Log Resource :=
  let nr := pagesNr pageShift cb
  let log := [.take .sgTable, .take .pageArray] ++ pages.map fun p => .take (.page p)
  let cb := {cb with pages := some pages}
  if pages.length ≠ nr then errOut (-EFAULT) {cb with pagesNr := pages.length} log
  else if duplicate pages then errOut (-EFAULT) {cb with pagesNr := nr} log
  else if leftLen pageShift nr cb.buf cb.len ≠ 0 then
    errOut (-EINVAL) {cb with pagesNr := nr} log
  else (0, {cb with pagesNr := nr}, log)

/-- `char_sgdma_map_user_buf_to_sgl`: what it returns, and what it takes and gives back. -/
def mapUserBufToSgl (cb : Cb) : Int × Cb × Log Resource :=
  if pagesNr pageShift cb = 0 then (-EINVAL, cb, [])
  else if k.sgAllocTable = false then (-ENOMEM, cb, [])
  else if k.pageArray = false then errOut (-ENOMEM) cb [.take .sgTable]
  else
    match k.getUserPages with
    | .error e =>
      errOut (-(e + 1 : Nat)) {cb with pages := some []} [.take .sgTable, .take .pageArray]
    | .pinned pages => mapPages pageShift cb (pages.take (pagesNr pageShift cb))

/-! ### The record of a transfer -/

/-- What was taken and given back, whether the mapping has answered as it does, and whether a
channel or the `info` was refused. -/
structure Track where
  cb : Cb
  log : Log Resource
  agrees : Bool
  refused : Bool

/-- The zeroed record of a call, with its buffer. -/
def entry (buf : BitVec 64) (count : Nat) : Track :=
  ⟨⟨buf, BitVec.ofNat 64 count, none, 0⟩, [], true, false⟩

/-- The value that an answer stands for. -/
def errno : Option (Fin maxErrno) → Int
  | none => 0
  | some e => -(e + 1 : Nat)

def Track.add (t : Track) (r : Cb × Log Resource) : Track :=
  {t with cb := r.1, log := t.log ++ r.2}

def track (t : Track) : (o : Op) → o.Val → Track
  | .mapUserBuf, v =>
    let r := mapUserBufToSgl pageShift k t.cb
    {t.add r.2 with agrees := t.agrees && decide (errno v = r.1)}
  | .unmapUserBuf, _ => t.add (unmapUserBuf t.cb)
  | .sgFreeTable, _ => t.add (t.cb, [.give .sgTable])
  | .dmaChan, v | .infoDone, v => {t with refused := t.refused || !v}
  | _, _ => t

/-! ### The mapping -/

/-- The pages are asked for. -/
structure Asked (cb : Cb) : Prop where
  nr : pagesNr pageShift cb ≠ 0
  sgAllocTable : k.sgAllocTable = true
  pageArray : k.pageArray = true

/-- A page is pinned, if pages are asked for. -/
def Pins (cb : Cb) : Prop :=
  Asked pageShift k cb → ∃ pages, k.getUserPages = .pinned pages ∧ pages ≠ []

/-- The buffer can be mapped: each page is pinned, no page twice in a row, and they hold it. -/
structure Mappable (cb : Cb) : Prop where
  asked : Asked pageShift k cb
  pinned : ∃ pages, k.getUserPages = .pinned pages ∧
    (pages.take (pagesNr pageShift cb)).length = pagesNr pageShift cb ∧
    duplicate (pages.take (pagesNr pageShift cb)) = false
  fits : leftLen pageShift (pagesNr pageShift cb) cb.buf cb.len = 0

/-- What a mapped buffer holds. -/
def taken (pages : List Nat) : Log Resource :=
  [.take .sgTable, .take .pageArray] ++ pages.map fun p => .take (.page p)

/-- What is given back of it when it is unmapped. -/
def given (pages : List Nat) : Log Resource :=
  pages.map (fun p => .give (.page p)) ++ [.give .pageArray]

/-- Only the table is left. -/
theorem owed_taken_given (pages : List Nat) (log : Log Resource) (r : Resource) :
    owed (taken pages ++ log ++ given pages) r = owed log r + if .sgTable = r then 1 else 0 := by
  simp only [taken, given, owed_append, owed_map_give, owed_take, owed_give, owed_nil]
  omega

theorem settled_taken_given (pages : List Nat) :
    Settled (taken pages ++ [.give .sgTable] ++ given pages) := by
  intro r
  rw [owed_taken_given, owed_give, owed_nil]
  omega

theorem unmapUserBuf_pages {cb : Cb} {pages : List Nat} (hpages : pages ≠ []) :
    unmapUserBuf {cb with pages := some pages, pagesNr := pages.length} =
      ({cb with pages := none, pagesNr := pages.length}, given pages) := by
  have hlength : pages.length ≠ 0 := List.length_eq_zero_iff.not.mpr hpages
  simp only [unmapUserBuf, if_neg hlength, List.take_length, given]

/-- A mapping that fails with its pages pinned gives all of it back. -/
theorem errOut_pages (rv : Int) {cb : Cb} {pages : List Nat} (hpages : pages ≠ []) :
    Settled (errOut rv {cb with pages := some pages, pagesNr := pages.length} (taken pages)).2.2 := by
  simp only [errOut, unmapUserBuf_pages hpages]
  rw [← List.singleton_append, ← List.append_assoc]
  exact settled_taken_given pages

/-- How a mapping ends. -/
inductive Mapped (cb : Cb) : Int × Cb × Log Resource → Prop
  | failed {rv cb' log} : rv < 0 → ¬ Mappable pageShift k cb →
    (Settled log ↔ Pins pageShift k cb) → Mapped cb (rv, cb', log)
  | mapped {pages} : Mappable pageShift k cb → Pins pageShift k cb → pages ≠ [] →
    Mapped cb (0, {cb with pages := some pages, pagesNr := pages.length}, taken pages)

variable {pageShift k} {cb : Cb}

/-- Nothing was pinned, and the array is left. -/
theorem not_settled_errOut (rv : Int) :
    ¬ Settled (errOut rv {cb with pages := some [], pagesNr := 0} (taken [])).2.2 := by
  intro h
  have howed := h .pageArray
  simp [errOut, unmapUserBuf, taken] at howed

/-- Pages that were pinned are mapped or given back. -/
theorem mapPages_mapped (asked : Asked pageShift k cb) {pages : List Nat}
    (hgup : k.getUserPages = .pinned pages) (hne : pages ≠ []) :
    Mapped pageShift k cb (mapPages pageShift cb (pages.take (pagesNr pageShift cb))) := by
  have hnr := asked.nr
  have hpages : pages.take (pagesNr pageShift cb) ≠ [] := by
    simp [List.take_eq_nil_iff, hnr, hne]
  have pins : Pins pageShift k cb := fun _ => ⟨pages, hgup, hne⟩
  have same {q : List Nat} (h : k.getUserPages = .pinned q) : q = pages := by
    rw [hgup] at h
    cases h
    rfl
  have fails {rv : Int} (hrv : rv < 0) (h : ¬ Mappable pageShift k cb) :
      Mapped pageShift k cb (errOut rv {cb with
        pages := some (pages.take (pagesNr pageShift cb)),
        pagesNr := (pages.take (pagesNr pageShift cb)).length}
        (taken (pages.take (pagesNr pageShift cb)))) :=
    .failed hrv h (iff_of_true (errOut_pages rv hpages) pins)
  unfold mapPages
  by_cases hlength : (pages.take (pagesNr pageShift cb)).length = pagesNr pageShift cb
  · simp only [hlength, ne_eq, not_true, if_false] at fails ⊢
    split
    · next dup =>
      refine fails (by decide) fun map => ?_
      obtain ⟨q, hq, -, hdup⟩ := map.pinned
      rw [same hq, dup] at hdup
      cases hdup
    · next dup =>
      split
      · next left => exact fails (by decide) fun map => left map.fits
      · next fits =>
        have map : Mappable pageShift k cb :=
          ⟨asked, ⟨pages, hgup, hlength, by simpa using dup⟩, by simpa using fits⟩
        have mapped := Mapped.mapped map pins hpages
        rwa [hlength] at mapped
  · rw [if_pos hlength]
    refine fails (by decide) fun map => ?_
    obtain ⟨q, hq, hfull, -⟩ := map.pinned
    rw [same hq] at hfull
    exact hlength hfull

/-- A mapping ends with the buffer mapped, or it fails: then it has given back what it took,
up to the array where no page was pinned. -/
theorem mapUserBufToSgl_mapped (hpages : cb.pages = none) (hnr : cb.pagesNr = 0) :
    Mapped pageShift k cb (mapUserBufToSgl pageShift k cb) := by
  have unasked (h : ¬ Asked pageShift k cb) {rv : Int} {cb' : Cb} {log : Log Resource} (hrv : rv < 0)
      (hlog : Settled log) : Mapped pageShift k cb (rv, cb', log) :=
    .failed hrv (fun map => h map.asked) (iff_of_true hlog fun asked => absurd asked h)
  have unpinned (asked : Asked pageShift k cb) (rv : Int) (hrv : rv < 0)
      (h : ∀ pages, k.getUserPages = .pinned pages → pages = []) :
      Mapped pageShift k cb (errOut rv {cb with pages := some [], pagesNr := 0} (taken [])) := by
    have not_pins : ¬ Pins pageShift k cb := by
      intro pins
      obtain ⟨pages, hgup, hne⟩ := pins asked
      exact hne (h pages hgup)
    refine .failed hrv (fun map => ?_) (iff_of_false (not_settled_errOut rv) not_pins)
    obtain ⟨pages, hgup, hfull, -⟩ := map.pinned
    rw [h pages hgup, List.take_nil] at hfull
    exact asked.nr hfull.symm
  unfold mapUserBufToSgl
  by_cases nr : pagesNr pageShift cb = 0
  · rw [if_pos nr]
    exact unasked (fun asked => asked.nr nr) (by decide) settled_nil
  rw [if_neg nr]
  cases table : k.sgAllocTable with
  | false =>
    refine unasked (fun asked => ?_) (by decide) settled_nil
    exact absurd asked.sgAllocTable (by simp [table])
  | true =>
    rw [if_neg (by decide)]
    cases array : k.pageArray with
    | false =>
      refine unasked (fun asked => ?_) (by decide) fun r => ?_
      · exact absurd asked.pageArray (by simp [array])
      · simp [unmapUserBuf, hpages]
    | true =>
      rw [if_neg (by decide)]
      have asked : Asked pageShift k cb := ⟨nr, table, array⟩
      cases gup : k.getUserPages with
      | error e =>
        have failed := unpinned asked (-(e + 1 : Nat)) (by omega) fun pages h => by
          rw [gup] at h
          cases h
        rw [← hnr] at failed
        exact failed
      | pinned pages =>
        cases pages with
        | nil =>
          have short : ([] : List Nat).length ≠ pagesNr pageShift cb := asked.nr.symm
          simp only [mapPages, List.take_nil, if_pos short]
          refine unpinned asked _ (by decide) fun pages h => ?_
          rw [gup] at h
          cases h
          rfl
        | cons p pages => exact mapPages_mapped asked gup (List.cons_ne_nil p pages)

/-- Some answer is what the mapping returns. -/
theorem mapUserBufToSgl_errno (cb : Cb) : ∃ v, errno v = (mapUserBufToSgl pageShift k cb).1 := by
  have einval : errno (some ⟨21, by decide⟩) = -EINVAL := rfl
  have enomem : errno (some ⟨11, by decide⟩) = -ENOMEM := rfl
  have efault : errno (some ⟨13, by decide⟩) = -EFAULT := rfl
  unfold mapUserBufToSgl
  split
  · exact ⟨_, einval⟩
  split
  · exact ⟨_, enomem⟩
  split
  · exact ⟨_, enomem⟩
  split
  · next e _ => exact ⟨some e, rfl⟩
  · unfold mapPages
    simp only
    split
    · exact ⟨_, efault⟩
    split
    · exact ⟨_, efault⟩
    split
    · exact ⟨_, einval⟩
    · exact ⟨none, rfl⟩

/-! ### The transfer -/

/-- The accesses that are not on the record. -/
def Apart : Op → Prop
  | .mapUserBuf | .unmapUserBuf | .sgFreeTable | .dmaChan | .infoDone => False
  | _ => True

theorem track_apart (o : Op) (ho : Apart o) (t : Track) (v : o.Val) : track pageShift k t o v = t := by
  cases o with
  | mapUserBuf | unmapUserBuf | sgFreeTable | dmaChan | infoDone => cases ho
  | _ => rfl

theorem only_finished : finished.Only Apart := by
  refine (Prog.only_call trivial : done.Only Apart).bind fun b => ?_
  exact Prog.only_ite (Prog.only_pure true) (Prog.only_call trivial)

theorem only_disturbed : disturbed.Only Apart := by
  refine (Prog.only_call trivial : epochChanged.Only Apart).bind fun b => ?_
  exact Prog.only_ite (Prog.only_pure true) (Prog.only_call trivial)

theorem only_waitDone (interruptible : Bool) (fuel : Nat) :
    (waitDone interruptible fuel).Only Apart := by
  induction fuel with
  | zero => exact Prog.only_pure none
  | succ fuel ih =>
    refine (Prog.only_call trivial : expired.Only Apart).bind fun b => ?_
    apply Prog.only_ite (Prog.only_pure _)
    refine (Prog.only_call trivial : (wait interruptible).Only Apart).bind fun ret => ?_
    apply Prog.only_ite (Prog.only_pure _)
    refine only_finished.bind fun b => Prog.only_ite (Prog.only_pure _) ?_
    refine (Prog.only_call trivial : epochChanged.Only Apart).bind fun b => ?_
    exact Prog.only_ite (Prog.only_pure _) ih

theorem only_checkDone : checkDone.Only Apart := by
  refine only_disturbed.bind fun b => Prog.only_ite (Prog.only_pure _) ?_
  exact (Prog.only_call trivial : done.Only Apart).bind fun b => Prog.only_pure _

theorem only_rewaitDone (interruptible : Bool) : (rewaitDone interruptible).Only Apart :=
  (Prog.only_call trivial : (wait interruptible).Only Apart).bind fun _ => only_checkDone

theorem only_tryLateCallbackRecovery : tryLateCallbackRecovery.Only Apart := by
  refine (Prog.only_call trivial : txStatus.Only Apart).bind fun status => ?_
  apply Prog.only_ite (Prog.only_pure _)
  refine (Prog.only_call trivial : taskletHiSchedule.Only Apart).bind fun _ => ?_
  refine (only_rewaitDone false).bind fun rc => Prog.only_ite (Prog.only_pure _) ?_
  refine (Prog.only_call trivial : taskletKill.Only Apart).bind fun _ => ?_
  exact only_checkDone.bind fun rc => Prog.only_ite (Prog.only_pure _) (Prog.only_pure _)

theorem only_graceRewait (cs : Fin 4) : (graceRewait cs).Only Apart := by
  refine (only_rewaitDone true).bind fun rc => Prog.only_ite (Prog.only_pure _) ?_
  exact (Prog.only_call trivial : chStatusRaw.Only Apart).bind fun _ => Prog.only_pure _

theorem only_recoverCs2Error (cs : Fin 4) : (recoverCs2Error cs).Only Apart := by
  apply Prog.only_ite (Prog.only_pure _)
  refine (Prog.only_call trivial : terminateAll.Only Apart).bind fun _ => ?_
  refine (Prog.only_call trivial : terminateAll.Only Apart).bind fun _ => ?_
  refine (Prog.only_call trivial : chStatusRaw.Only Apart).bind fun cs => ?_
  apply Prog.only_ite (Prog.only_pure _)
  exact (Prog.only_call trivial : enqueueEvent.Only Apart).bind fun _ => Prog.only_pure _

theorem only_stuckGracefulThenForce : stuckGracefulThenForce.Only Apart := by
  refine (Prog.only_call trivial : terminateAll.Only Apart).bind fun _ => ?_
  refine (only_rewaitDone false).bind fun rc => Prog.only_ite (Prog.only_pure _) ?_
  refine (Prog.only_call trivial : chStatusRaw.Only Apart).bind fun _ => ?_
  refine (Prog.only_call trivial : terminateAll.Only Apart).bind fun _ => ?_
  exact (Prog.only_call trivial : enqueueEvent.Only Apart).bind fun _ => Prog.only_pure _

theorem only_handleWaitTimeout : handleWaitTimeout.Only Apart := by
  refine only_tryLateCallbackRecovery.bind fun rc => Prog.only_ite (Prog.only_pure _) ?_
  refine (Prog.only_call trivial : chStatusRaw.Only Apart).bind fun cs => ?_
  refine (only_graceRewait cs).bind fun r => Prog.only_ite (Prog.only_pure _) ?_
  refine (only_recoverCs2Error r.2).bind fun rc => Prog.only_ite (Prog.only_pure _) ?_
  exact only_stuckGracefulThenForce

theorem only_signalDrain (stalls fuel : Nat) : (signalDrain stalls fuel).Only Apart := by
  induction fuel generalizing stalls with
  | zero => exact Prog.only_pure none
  | succ fuel ih =>
    refine only_finished.bind fun b => Prog.only_ite (Prog.only_pure _) ?_
    refine (Prog.only_call trivial : epochChanged.Only Apart).bind fun b => ?_
    refine Prog.only_ite (Prog.only_pure _) ((only_waitDone false fuel).bind fun ret => ?_)
    cases ret with
    | none => exact Prog.only_pure none
    | some ret =>
      refine only_finished.bind fun b => Prog.only_ite (Prog.only_pure _) ?_
      refine (Prog.only_call trivial : epochChanged.Only Apart).bind fun b => ?_
      refine Prog.only_ite (Prog.only_pure _) (Prog.only_ite (ih 0) ?_)
      exact Prog.only_ite (Prog.only_pure _) (ih (stalls + 1))

theorem only_finalizeFailed (signed : Bool) (err : Int) (action : FailAction) :
    (finalizeFailed signed err action).Only Apart := by
  have twice : terminateAll.Only Apart := Prog.only_call trivial
  cases action with
  | terminateTwice => exact twice.bind fun _ => twice.bind fun _ => Prog.only_pure _
  | terminateOnce => exact twice.bind fun _ => Prog.only_pure _
  | noHwTouch => exact Prog.only_pure _

variable (pageShift k)

/-- The code frees the table, and nothing else, before it returns; while it waits it has not
returned. -/
def Frees {α : Type} (p : Code (Option α)) : Prop :=
  ∀ t post, (∀ u, post none u) → (∀ a, post (some a) (t.add (t.cb, [.give .sgTable]))) →
    p.wp (track pageShift k) post t

variable {pageShift k}

section Rules
variable {α β : Type} {p q : Code (Option β)}

theorem frees_waiting : Frees pageShift k (pure none : Code (Option β)) :=
  fun t _ waiting _ => waiting t

theorem frees_bind {r : Code α} {f : α → Code (Option β)} (h : r.Only Apart)
    (hf : ∀ a, Frees pageShift k (f a)) : Frees pageShift k (r >>= f) := by
  intro t post waiting freed
  rw [Prog.wp_bind]
  exact h.wp (fun o ho t v => track_apart o ho t v) fun a => hf a t post waiting freed

theorem frees_ite {c : Prop} [Decidable c] (h : Frees pageShift k p) (h' : Frees pageShift k q) :
    Frees pageShift k (if c then p else q) := by
  split
  · exact h
  · exact h'

end Rules

section Exits
variable (signed : Bool)

theorem frees_errAllocDescs (owned : Bool) (result : Int) :
    Frees pageShift k (errAllocDescs owned result) := by
  intro t post waiting freed
  cases owned with
  | true => exact fun _ _ _ => freed _
  | false => exact fun _ _ => freed _

theorem frees_errStats (preMapped failed : Bool) (result : Int) :
    Frees pageShift k (errStats signed preMapped failed result) := by
  have rest (result : Int) : Frees pageShift k (errAllocDescs true result) :=
    frees_errAllocDescs true result
  cases preMapped with
  | true => exact rest _
  | false => exact frees_bind (Prog.only_call trivial : unmapSg.Only Apart) fun _ => rest _

theorem frees_finalChecks (preMapped failed : Bool) (result : Int) :
    Frees pageShift k (finalChecks signed preMapped failed result) := by
  have stats (failed : Bool) (result : Int) :
      Frees pageShift k (errStats signed preMapped failed result) :=
    frees_errStats signed preMapped failed result
  refine frees_bind only_disturbed fun b => frees_ite (stats _ _) (frees_ite (stats _ _) ?_)
  refine frees_bind (Prog.only_call trivial : txStatus.Only Apart) fun status => ?_
  refine frees_bind (Prog.only_call trivial : aborted.Only Apart) fun b => frees_ite ?_ ?_
  · refine frees_bind (Prog.only_call trivial : clearAborted.Only Apart) fun _ => ?_
    exact frees_bind (only_finalizeFailed ..) fun r => stats _ r
  · exact frees_ite (frees_bind (only_finalizeFailed ..) fun r => stats _ r) (stats _ _)

theorem frees_awaited (preMapped : Bool) (fuel : Nat) (ret : WaitRet) :
    Frees pageShift k (awaited signed preMapped fuel ret) := by
  have stats (failed : Bool) (result : Int) :
      Frees pageShift k (errStats signed preMapped failed result) :=
    frees_errStats signed preMapped failed result
  have checks (failed : Bool) (result : Int) :
      Frees pageShift k (finalChecks signed preMapped failed result) :=
    frees_finalChecks signed preMapped failed result
  refine frees_bind (Prog.only_call trivial : epochChanged.Only Apart) fun b => ?_
  apply frees_ite (stats _ _)
  refine frees_bind (Prog.only_call trivial : hwErr.Only Apart) fun b => frees_ite ?_ ?_
  · exact frees_bind (only_finalizeFailed ..) fun r => checks _ r
  refine frees_ite (frees_bind (only_signalDrain 0 fuel) fun gaveUp => ?_) ?_
  · cases gaveUp with
    | none => exact frees_waiting
    | some gaveUp =>
      cases gaveUp with
      | true => exact frees_bind (only_finalizeFailed ..) fun r => stats _ r
      | false => exact frees_bind only_disturbed fun b => frees_ite (stats _ _) (checks _ _)
  refine frees_bind (Prog.only_call trivial : done.Only Apart) fun b => frees_ite ?_ (checks _ _)
  refine frees_bind only_handleWaitTimeout fun rc => frees_ite ?_ (checks _ _)
  exact frees_bind (only_finalizeFailed ..) fun r => checks _ r

theorem frees_admitted (preMapped : Bool) (fuel : Nat) :
    Frees pageShift k (admitted signed preMapped fuel) := by
  have stats (failed : Bool) (result : Int) :
      Frees pageShift k (errStats signed preMapped failed result) :=
    frees_errStats signed preMapped failed result
  refine frees_bind (Prog.only_call trivial : startEpoch.Only Apart) fun _ => ?_
  refine frees_bind (Prog.only_call trivial : live.Only Apart) fun b => frees_ite (stats _ _) ?_
  refine frees_bind (Prog.only_call trivial : prep.Only Apart) fun b => frees_ite (stats _ _) ?_
  refine frees_bind (Prog.only_call trivial : resetFlags.Only Apart) fun _ => ?_
  refine frees_bind (Prog.only_call trivial : submit.Only Apart) fun b => frees_ite (stats _ _) ?_
  refine frees_bind (Prog.only_call trivial : issuePending.Only Apart) fun _ => ?_
  refine frees_bind (only_waitDone true fuel) fun ret => ?_
  cases ret with
  | none => exact frees_waiting
  | some ret => exact frees_awaited signed preMapped fuel ret

/-- With a channel, `dw_edma_sg_process` frees the table at each of its exits. -/
theorem frees_sgProcess (preMapped : Bool) (fuel : Nat) :
    Frees pageShift k (sgProcess signed preMapped true fuel) := by
  have acquires : acquire.Only Apart :=
    (Prog.only_call trivial : Outcome.chanLock.Only Apart).bind fun b =>
      Prog.only_ite (Prog.only_pure _) (Prog.only_call trivial)
  refine frees_bind acquires fun b => frees_ite (frees_errAllocDescs _ _) ?_
  apply frees_ite (frees_admitted signed preMapped fuel)
  refine frees_bind (Prog.only_call trivial : mapSg.Only Apart) fun b => ?_
  exact frees_ite (frees_errAllocDescs _ _) (frees_admitted signed preMapped fuel)

end Exits

/-! ### Its callers -/

/-- The device has a number, and neither a channel nor the `info` was refused. -/
def Served (idx : Int) (refused : Bool) : Prop := refused = false ∧ 0 ≤ idx ∧ idx < maxDevNum

section Callers
variable (pageShift k) (channels : Dw → Nat) (dw : Option Dw) (npuId : Int) (cb : Cb) (refused : Bool)

/-- Where there is a device with the channel: if pages are asked for, one is pinned; and if the
buffer can be mapped, its transfer is served. -/
def Tidy : Prop :=
  ∀ d, dw = some d → 0 ≤ npuId → npuId < channels d →
    Pins pageShift k cb ∧ (Mappable pageShift k cb → Served d.idx refused)

end Callers

/-- On every return, if the mapping answers what it returns. -/
def Returned (P : Track → Prop) (r : Option Int) (t : Track) : Prop :=
  r ≠ none → t.agrees = true → P t

/-- A mapping does not answer twice. -/
theorem balanced_of_not_agrees {α : Type} {p : Code α} {post : α → Track → Prop} {t : Track}
    (h : t.agrees = false) (hpost : ∀ a u, u.agrees = false → post a u) :
    p.wp (track pageShift k) post t := by
  refine Prog.wp_of_kept (fun s o v hs => ?_) h hpost
  cases o with
  | mapUserBuf => simp [track, hs]
  | _ => exact hs

section Run
variable {signed : Bool} {idx : Int} {t : Track}

/-- What `dw_edma_run` adds to a record. -/
inductive Ran (idx : Int) (t : Track) : Option (Int × Int) → Track → Prop
  | waiting {u} : Ran idx t none u
  | left {a refused} : ¬ Served idx refused → Ran idx t (some a) {t with refused := refused}
  | freed {a} : Served idx t.refused → Ran idx t (some a) (t.add (t.cb, [.give .sgTable]))

/-- The table is freed where `dw_edma_sg_process` is called with a channel. -/
theorem wp_run {chan : Bool} {fuel : Nat} (hchan : t.refused = !chan) {post : _ → _ → Prop}
    (hpost : ∀ r u, Ran idx t r u → post r u) :
    (run signed false chan idx fuel).wp (track pageShift k) post t := by
  unfold run
  rw [Prog.wp_ite]
  split
  case isTrue h =>
    refine hpost _ _ (.left fun served : Served idx t.refused => ?_)
    rcases h with h | h
    · exact absurd served.2.1 (by omega)
    · exact absurd served.2.2 (by omega)
  case isFalse h =>
  push Not at h
  intro free
  cases free with
  | false => exact hpost _ _ (.left fun served => by simpa using served.1)
  | true =>
    have hsame : track pageShift k t .infoDone true = t := by simp [track]
    rw [hsame]
    cases chan with
    | false =>
      refine hpost _ _ (.left fun served : Served idx t.refused => ?_)
      rw [hchan] at served
      exact absurd served.1 (by decide)
    | true =>
      have freed : Frees pageShift k (sgProcess signed false true fuel) :=
        frees_sgProcess signed false fuel
      exact freed t post (fun u => hpost _ _ .waiting) fun a => hpost _ _ (.freed ⟨hchan, h⟩)

/-- The record of a mapped buffer, and what has come to it since. -/
structure Holds (pages : List Nat) (log : Log Resource) (t : Track) : Prop where
  cb : ∃ cb : Cb, t.cb = {cb with pages := some pages, pagesNr := pages.length}
  log : t.log = taken pages ++ log

/-- Once it is unmapped, all is settled but for the table. -/
theorem Holds.unmapped {pages : List Nat} {log : Log Resource} (h : Holds pages log t)
    (hpages : pages ≠ []) :
    (track pageShift k t .unmapUserBuf ()).log = taken pages ++ log ++ given pages := by
  obtain ⟨cb, hcb⟩ := h.cb
  simp only [track, Track.add, hcb, unmapUserBuf_pages hpages, h.log]

theorem Holds.not_settled {pages : List Nat} (h : Holds pages [] t) (hpages : pages ≠ []) :
    ¬ Settled (track pageShift k t .unmapUserBuf ()).log := by
  intro settled
  have howed := settled .sgTable
  rw [h.unmapped hpages, owed_taken_given, owed_nil] at howed
  simp at howed

theorem Holds.freed {pages : List Nat} (h : Holds pages [] t) :
    Holds pages [.give .sgTable] (t.add (t.cb, [.give .sgTable])) where
  cb := h.cb
  log := by simp [Track.add, h.log]

/-- A transfer of a mapped buffer settles all of it exactly if it is served. -/
theorem wp_served {pages : List Nat} {fuel count : Nat} (h : Holds pages [] t) (hpages : pages ≠ [])
    (hrefused : t.refused = false) {post : Option Int → Track → Prop}
    (hpost : ∀ r u, (r ≠ none → (Settled u.log ↔ Served idx u.refused)) → post r u) :
    (do
      if !(← dmaChan) then
        Outcome.unmapUserBuf
        return some (-ENODEV)
      else
        let r ← run signed false (← dmaChan) idx fuel
        Outcome.unmapUserBuf
        return r.map (checkResult count) : Code (Option Int)).wp (track pageShift k) post t := by
  -- a record that nothing was added to
  have left {u : Track} {r : Option Int} (hu : Holds pages [] u) (served : ¬ Served idx u.refused) :
      post r (track pageShift k u .unmapUserBuf ()) :=
    hpost _ _ fun _ => iff_of_false (hu.not_settled hpages) served
  intro chan
  cases chan with
  | false =>
    intro _
    exact left ⟨h.cb, h.log⟩ fun served => by simpa [track] using served.1
  | true =>
    intro chan
    show (run signed false chan idx fuel >>= _).wp _ _ _
    rw [Prog.wp_bind]
    refine wp_run (by simp [track, hrefused]) fun r u ran => ?_
    intro _
    cases ran with
    | waiting => exact hpost _ _ fun hr => absurd rfl hr
    | left served => exact left ⟨h.cb, h.log⟩ served
    | freed served =>
      refine hpost _ _ fun _ => iff_of_true ?_ served
      have freed : Holds pages [] (track pageShift k (track pageShift k t .dmaChan true) .dmaChan
        chan) := ⟨h.cb, h.log⟩
      rw [freed.freed.unmapped hpages]
      exact settled_taken_given pages

end Run

/-- What is asked of a transfer on a channel that exists. -/
theorem tidy_iff {channels : Dw → Nat} {d : Dw} {npuId : Int} {cb : Cb} {refused : Bool}
    (h : 0 ≤ npuId ∧ npuId < channels d) :
    Tidy pageShift k channels (some d) npuId cb refused ↔
      Pins pageShift k cb ∧ (Mappable pageShift k cb → Served d.idx refused) := by
  constructor
  · intro tidy
    exact tidy d rfl h.1 h.2
  · intro asked e he _ _
    cases he
    exact asked

/-- Every return of a transfer has settled what it took exactly if it was tidy. -/
theorem wp_userTransfer (signed : Bool) (channels : Dw → Nat) (fuel : Nat) (dw : Option Dw)
    (buf : BitVec 64) (count : Nat) (npuId : Int) :
    (userTransfer signed channels fuel dw count npuId).wp (track pageShift k)
      (Returned fun t => Settled t.log ↔
        Tidy pageShift k channels dw npuId (entry buf count).cb t.refused) (entry buf count) := by
  cases dw with
  | none =>
    intro _ _
    exact iff_of_true settled_nil fun d hd => by cases hd
  | some d =>
    unfold userTransfer
    simp only
    rw [Prog.wp_ite]
    split
    case isTrue h =>
      refine fun _ _ => iff_of_true settled_nil fun e he h0 hlt => ?_
      cases he
      omega
    case isFalse h =>
    push Not at h
    have mapped : Mapped pageShift k (entry buf count).cb
        (mapUserBufToSgl pageShift k (entry buf count).cb) := mapUserBufToSgl_mapped rfl rfl
    intro v
    have hstate : track pageShift k (entry buf count) .mapUserBuf v =
      ⟨(mapUserBufToSgl pageShift k (entry buf count).cb).2.1,
        (mapUserBufToSgl pageShift k (entry buf count).cb).2.2,
        decide (errno v = (mapUserBufToSgl pageShift k (entry buf count).cb).1), false⟩ := rfl
    rw [hstate]
    generalize mapUserBufToSgl pageShift k (entry buf count).cb = r at mapped ⊢
    cases mapped with
    | failed hrv unmappable hsettled =>
      cases v with
      | none =>
        refine balanced_of_not_agrees ?_ fun a u hu _ agrees => ?_
        · exact decide_eq_false hrv.ne'
        · rw [hu] at agrees
          cases agrees
      | some e =>
        refine fun _ _ => hsettled.trans (Iff.trans ?_ (tidy_iff h).symm)
        exact ⟨fun pins => ⟨pins, fun map => absurd map unmappable⟩, And.left⟩
    | mapped map pins hpages =>
      cases v with
      | none =>
        refine wp_served ⟨⟨_, rfl⟩, (List.append_nil _).symm⟩ hpages rfl fun r u hr hne _ => ?_
        refine (hr hne).trans (Iff.trans ?_ (tidy_iff h).symm)
        exact ⟨fun served => ⟨pins, fun _ => served⟩, fun h => h.2 map⟩
      | some e =>
        intro _ agrees
        have hrv : errno (some e) = 0 := of_decide_eq_true agrees
        simp only [errno] at hrv
        omega

end PageSize

/-- On every return of `dx_sgdma_write_user` and `dx_sgdma_read_user` the table, the array and
the pages that were taken have been given back as often, exactly if a page was pinned where
pages were asked for and the transfer of a mapped buffer was served. -/
theorem balanced_iff_tidy (pageShift : Nat) (k : Kernel) (signed : Bool) (fuel : Nat)
    (dw : Option Dw) (buf : BitVec 64) (count : Nat) (npuId : Int) :
    (writeUser signed fuel dw count npuId).wp (track pageShift k)
      (Returned fun t => Settled t.log ↔
        Tidy pageShift k (fun _ => h2cDataChCnt) dw npuId (entry buf count).cb t.refused)
      (entry buf count) ∧
    (readUser signed fuel dw count npuId).wp (track pageShift k)
      (Returned fun t => Settled t.log ↔
        Tidy pageShift k Dw.wrChCnt dw npuId (entry buf count).cb t.refused)
      (entry buf count) :=
  ⟨wp_userTransfer signed _ fuel dw buf count npuId, wp_userTransfer signed _ fuel dw buf count npuId⟩

/-- The array stays behind when the page of the buffer cannot be pinned, and the table when
its `info` is not done. -/
theorem array_and_table_left :
    (¬ (writeUser true 0 (some ⟨0, 2⟩) 4096 0).wp (track 12 ⟨true, true, .error ⟨13, by decide⟩⟩)
      (Returned fun t => Settled t.log) (entry 4096 4096)) ∧
    ¬ (readUser true 0 (some ⟨0, 2⟩) 4096 0).wp (track 12 ⟨true, true, .pinned [7]⟩)
      (Returned fun t => Settled t.log) (entry 4096 4096) := by
  constructor
  · intro h
    have left := h (some ⟨13, by decide⟩) (Option.some_ne_none _) (by decide) .pageArray
    exact absurd left (by decide)
  · intro h
    -- mapped, two reads of the channel, and an `info` that is not done
    have left := h none true true false () (Option.some_ne_none _) (by decide) .sgTable
    exact absurd left (by decide)

end DxNpuDriver.Edma.Pinned
