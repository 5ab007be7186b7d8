/-
# Oxydllm.Hub.Download — fetching a file over connections that stop (`download_file`).

Every attempt asks for the bytes past those on disk and believes the status it gets: `206` appends, `200`
starts the file over, `416` says whether what is there is all. The file is at any moment absent, a beginning
of the upstream file, or a longer one that was there before and has not been touched (`Startable`).
-/
import Mathlib.Data.List.Basic
import Mathlib.Data.List.Infix

namespace Oxydllm.Hub

abbrev Bytes := List UInt8

/-- The file at the destination, if there is one. -/
abbrev Disk := Option Bytes

/-- An answer: its status, the totals its headers state, the chunks of its body that arrive, and whether the
connection is lost behind them. -/
structure Response where
  status : Nat
  contentRangeTotal : Option Nat
  contentLength : Option Nat
  chunks : List Bytes
  lost : Bool

/-- What went wrong, with the numbers the messages show. -/
inductive DownloadError where
  | send
  | open
  | startOver (total : Option Nat) (found : Nat)
  | lostAt (downloaded : Nat) (total : Option Nat)
  | endedAt (downloaded total : Nat)
  | authentication
  | denied
  | notFound
  | http (code : Nat)
  | stoppedShort (last : DownloadError)

/-- Why a fetch stopped: something a fresh connection can fix, or not. -/
inductive Fetched where
  | ok
  | transient (e : DownloadError)
  | fatal (e : DownloadError)
  | panicked

/-- The error of a status; none for a success. -/
def checkStatus (status : Nat) : Option DownloadError :=
  if 200 ≤ status ∧ status ≤ 299 then none
  else if status = 401 then some .authentication
  else if status = 403 then some .denied
  else if status = 404 then some .notFound
  else some (.http status)

/-- The chunks of a body written behind what the file has, and how the fetch ends. -/
def writeBody (file : Bytes) (downloaded : Nat) (total : Option Nat) (r : Response) : Fetched × Disk :=
  let out := some (file ++ r.chunks.flatten)
  let downloaded := downloaded + r.chunks.flatten.length
  if r.lost then (.transient (.lostAt downloaded total), out)
  else
    match total with
    | some t => if downloaded ≠ t then (.transient (.endedAt downloaded t), out) else (.ok, out)
    | none => (.ok, out)

/-- One connection. The file had `held` bytes when it was asked for; `none` is a request that fails. -/
def fetchFrom (held : Nat) (expected : Option Nat) (disk : Disk) : Option Response → Fetched × Disk
  | none => (.transient .send, disk)
  | some r =>
      if r.status = 206 then
        match disk with
        | some file => writeBody file held (r.contentRangeTotal.or expected) r
        | none => (.fatal .open, disk)
      else if r.status = 416 then
        let total := r.contentRangeTotal
        if total = some held ∨ (total = none ∧ expected = some held) then (.ok, disk)
        else (.transient (.startOver total held), none)
      else if r.status = 200 then writeBody [] 0 (r.contentLength.or expected) r
      else
        match checkStatus r.status with
        | some e => (.fatal e, disk)
        | none => (.panicked, disk)

/-- What the server answers on an attempt to the request for the bytes from an offset on; the request for
offset zero names no range. -/
abbrev Server := Nat → Nat → Option Response

inductive Downloaded where
  | ok
  | err (e : DownloadError)
  | panicked

def downloadAttempts : Nat := 5

def held (disk : Disk) : Nat := (disk.map List.length).getD 0

/-- The loop of `download_file`, with attempts left behind this one. -/
def downloadLoop (server : Server) (expected : Option Nat) : Nat → Disk → Downloaded × Disk
  | left, disk =>
      if 0 < held disk ∧ expected = some (held disk) then (.ok, disk)
      else
        match fetchFrom (held disk) expected disk (server (downloadAttempts - left) (held disk)) with
        | (.ok, disk) => (.ok, disk)
        | (.fatal e, disk) => (.err e, disk)
        | (.panicked, disk) => (.panicked, disk)
        | (.transient e, disk) =>
            match left with
            | 0 => (.err (.stoppedShort e), disk)
            | left + 1 => downloadLoop server expected left disk

/-- Fetches the file, resuming from the bytes already there. -/
def downloadFile (server : Server) (expected : Option Nat) (disk : Disk) : Downloaded × Disk :=
  downloadLoop server expected (downloadAttempts - 1) disk

/-! ## The server -/

/-- How the server of a file may answer a request for the bytes from an offset on. A body may be cut
anywhere, and the cut may look like its end. -/
inductive Answers (upstream : Bytes) (offset : Nat) : Option Response → Prop
  | failed : Answers upstream offset none
  | refused {r : Response} : ¬ (200 ≤ r.status ∧ r.status ≤ 299) → r.status ≠ 416 →
      Answers upstream offset (some r)
  | range {r : Response} : 0 < offset → r.status = 206 → r.contentRangeTotal = some upstream.length →
      r.chunks.flatten <+: upstream.drop offset → Answers upstream offset (some r)
  | whole {r : Response} : r.status = 200 → r.contentLength = some upstream.length →
      r.chunks.flatten <+: upstream → Answers upstream offset (some r)
  | unsatisfiable {r : Response} : 0 < offset → r.status = 416 →
      r.contentRangeTotal = some upstream.length → Answers upstream offset (some r)

/-- A server that answers in full. -/
def fully (upstream : Bytes) : Server := fun _ offset =>
  some (if offset = 0 then ⟨200, none, some upstream.length, [upstream], false⟩
    else if offset < upstream.length then ⟨206, some upstream.length, none, [upstream.drop offset], false⟩
    else ⟨416, some upstream.length, some 0, [], false⟩)

/-! ## The file on disk -/

/-- What a download may find, and leave when it fails: no file, a beginning of the upstream file, or a file
that is too long. -/
inductive Startable (upstream : Bytes) : Disk → Prop
  | absent : Startable upstream none
  | beginning {file : Bytes} : file <+: upstream → Startable upstream (some file)
  | tooLong {file : Bytes} : upstream.length < file.length → Startable upstream (some file)

/-- What a download that started from a file has made of it: too long is only a file not touched yet. -/
inductive Reached (upstream : Bytes) (start : Disk) : Disk → Prop
  | absent : Reached upstream start none
  | beginning {file : Bytes} : file <+: upstream → Reached upstream start (some file)
  | untouched {file : Bytes} : start = some file → upstream.length < file.length →
      Reached upstream start (some file)

theorem Startable.reached {upstream : Bytes} {start : Disk} (h : Startable upstream start) :
    Reached upstream start start := by
  cases h with
  | absent => exact .absent
  | beginning hpre => exact .beginning hpre
  | tooLong hlong => exact .untouched rfl hlong

theorem Reached.startable {upstream : Bytes} {start disk : Disk} (h : Reached upstream start disk) :
    Startable upstream disk := by
  cases h with
  | absent => exact .absent
  | beginning hpre => exact .beginning hpre
  | untouched _ hlong => exact .tooLong hlong

/-- A file of the upstream length is the upstream file. -/
theorem Reached.complete {upstream : Bytes} {start disk : Disk} (h : Reached upstream start disk)
    (hsome : disk ≠ none) (hlen : held disk = upstream.length) : disk = some upstream := by
  cases h with
  | absent => exact absurd rfl hsome
  | beginning hpre => exact congrArg some (hpre.eq_of_length hlen)
  | untouched _ hlong => exact absurd hlen (Nat.ne_of_gt hlong)

/-- A file of the length expected is the upstream file. -/
theorem Reached.expected {upstream : Bytes} {start disk : Disk} (h : Reached upstream start disk)
    {expected : Option Nat} (hexpected : ∀ n ∈ expected, n = upstream.length)
    (hall : 0 < held disk ∧ expected = some (held disk)) : disk = some upstream := by
  refine h.complete ?_ (hexpected _ hall.2)
  rintro rfl
  exact absurd hall.1 (Nat.lt_irrefl 0)

/-! ## One connection -/

/-- A fetch that succeeds has the file; one that does not has left a file that is allowed. -/
def Sound (upstream : Bytes) (start : Disk) (r : Fetched × Disk) : Prop :=
  match r with
  | (.ok, disk) => disk = some upstream
  | (.transient _, disk) => Reached upstream start disk
  | (.fatal _, disk) => Reached upstream start disk
  | (.panicked, _) => False

/-- A body written behind a file of the right beginning. -/
theorem writeBody_sound {upstream file : Bytes} {start : Disk} {r : Response}
    (hreached : Reached upstream start (some (file ++ r.chunks.flatten))) :
    Sound upstream start (writeBody file file.length (some upstream.length) r) := by
  unfold writeBody
  dsimp only
  by_cases hlost : r.lost = true
  · rw [if_pos hlost]
    exact hreached
  · rw [if_neg hlost]
    by_cases hlen : file.length + r.chunks.flatten.length = upstream.length
    · rw [if_neg (not_not.2 hlen)]
      refine hreached.complete (Option.some_ne_none _) ?_
      show (file ++ r.chunks.flatten).length = _
      rw [List.length_append, hlen]
    · rw [if_pos hlen]
      exact hreached

/-- The bytes past the end of the file, behind it. -/
theorem Reached.append {upstream file body : Bytes} {start : Disk} (h : Reached upstream start (some file))
    (hbody : body <+: upstream.drop file.length) : Reached upstream start (some (file ++ body)) := by
  cases h with
  | beginning hpre =>
      obtain ⟨rest, rfl⟩ := hpre
      rw [List.drop_left] at hbody
      exact .beginning ((List.prefix_append_right_inj file).2 hbody)
  | untouched hstart hlong =>
      -- there is nothing past the end of a file that is too long
      rw [List.drop_eq_nil_of_le hlong.le, List.prefix_nil] at hbody
      rw [hbody, List.append_nil]
      exact .untouched hstart hlong

theorem fetchFrom_sound {upstream : Bytes} {start disk : Disk} (h : Reached upstream start disk)
    (expected : Option Nat) {answer : Option Response} (hanswer : Answers upstream (held disk) answer) :
    Sound upstream start (fetchFrom (held disk) expected disk answer) := by
  cases hanswer with
  | failed => exact h
  | @refused r hfailed h416 =>
      have hcheck : ∃ e, checkStatus r.status = some e := by
        unfold checkStatus
        rw [if_neg hfailed]
        split
        · exact ⟨_, rfl⟩
        · split
          · exact ⟨_, rfl⟩
          · split <;> exact ⟨_, rfl⟩
      obtain ⟨e, hcheck⟩ := hcheck
      unfold fetchFrom
      simp only [if_neg (show ¬ r.status = 206 by omega), if_neg h416, if_neg (show ¬ r.status = 200 by omega),
        hcheck]
      exact h
  | @range r hpos hstatus htotal hbody =>
      unfold fetchFrom
      simp only [if_pos hstatus, htotal, Option.some_or]
      cases disk with
      | none => exact absurd hpos (Nat.lt_irrefl 0)
      | some file => exact writeBody_sound (h.append hbody)
  | @whole r hstatus hlength hbody =>
      unfold fetchFrom
      simp only [if_neg (show ¬ r.status = 206 by omega), if_neg (show ¬ r.status = 416 by omega), if_pos hstatus,
        hlength, Option.some_or]
      exact @writeBody_sound upstream [] start r (.beginning hbody)
  | @unsatisfiable r hpos hstatus htotal =>
      unfold fetchFrom
      simp only [if_neg (show ¬ r.status = 206 by omega), if_pos hstatus, htotal]
      by_cases hlen : upstream.length = held disk
      · rw [if_pos (.inl (congrArg some hlen))]
        refine h.complete ?_ hlen.symm
        rintro rfl
        exact absurd hpos (Nat.lt_irrefl 0)
      · rw [if_neg]
        · exact .absent
        · rintro (hsame | ⟨hnone, -⟩)
          · exact hlen (Option.some.inj hsame)
          · cases hnone

/-! ## The attempts -/

/-- What a download ends with. -/
def Ended (upstream : Bytes) (start : Disk) (r : Downloaded × Disk) : Prop :=
  match r with
  | (.ok, disk) => disk = some upstream
  | (.err _, disk) => Reached upstream start disk
  | (.panicked, _) => False

theorem downloadLoop_ended {upstream : Bytes} {server : Server}
    (hserver : ∀ i offset, Answers upstream offset (server i offset)) {expected : Option Nat}
    (hexpected : ∀ n ∈ expected, n = upstream.length) (left : Nat) {start disk : Disk}
    (h : Reached upstream start disk) : Ended upstream start (downloadLoop server expected left disk) := by
  induction left generalizing disk with
  | zero =>
      unfold downloadLoop
      split
      next hall => exact h.expected hexpected hall
      next =>
        have hfetch := fetchFrom_sound h expected (hserver (downloadAttempts - 0) (held disk))
        generalize fetchFrom (held disk) expected disk (server (downloadAttempts - 0) (held disk)) = r at hfetch
        obtain ⟨_ | _ | _ | _, disk'⟩ := r
        all_goals exact hfetch
  | succ left ih =>
      unfold downloadLoop
      split
      next hall => exact h.expected hexpected hall
      next =>
        have hfetch := fetchFrom_sound h expected (hserver (downloadAttempts - (left + 1)) (held disk))
        generalize fetchFrom (held disk) expected disk (server (downloadAttempts - (left + 1)) (held disk)) = r
          at hfetch
        obtain ⟨_ | e | _ | _, disk'⟩ := r
        case transient => exact ih hfetch
        all_goals exact hfetch

/-- An attempt at a server that answers in full succeeds, or clears the way for the next. -/
theorem fully_answers (upstream : Bytes) (i offset : Nat) : Answers upstream offset (fully upstream i offset) := by
  unfold fully
  by_cases hzero : offset = 0
  · rw [if_pos hzero]
    exact .whole rfl rfl (by simp)
  · rw [if_neg hzero]
    by_cases hlt : offset < upstream.length
    · rw [if_pos hlt]
      exact .range (Nat.pos_of_ne_zero hzero) rfl rfl (by simp)
    · rw [if_neg hlt]
      exact .unsatisfiable (Nat.pos_of_ne_zero hzero) rfl rfl

theorem writeBody_fully {file rest : Bytes} {r : Response} (hchunks : r.chunks.flatten = rest)
    (hlost : r.lost = false) :
    writeBody file file.length (some (file ++ rest).length) r = (.ok, some (file ++ rest)) := by
  unfold writeBody
  simp only [hchunks, hlost, Bool.false_eq_true, if_false, List.length_append, ne_eq, not_true]

/-- An attempt at a server that answers in full has the file, or removes one that is too long. -/
theorem fetchFrom_fully {upstream : Bytes} {disk : Disk} (h : Startable upstream disk) (expected : Option Nat)
    (i : Nat) :
    fetchFrom (held disk) expected disk (fully upstream i (held disk)) = (.ok, some upstream) ∨
      ∃ e, fetchFrom (held disk) expected disk (fully upstream i (held disk)) = (.transient e, none) := by
  unfold fully
  by_cases hzero : held disk = 0
  · rw [if_pos hzero]
    exact .inl (@writeBody_fully [] upstream ⟨200, none, some upstream.length, [upstream], false⟩
      List.flatten_singleton rfl)
  · rw [if_neg hzero]
    by_cases hlt : held disk < upstream.length
    · rw [if_pos hlt]
      refine .inl ?_
      cases h with
      | absent => exact absurd rfl hzero
      | @beginning file hpre =>
          obtain ⟨rest, rfl⟩ := hpre
          refine @writeBody_fully file rest
            ⟨206, some (file ++ rest).length, none, [(file ++ rest).drop file.length], false⟩ ?_ rfl
          show [(file ++ rest).drop file.length].flatten = rest
          rw [List.drop_left, List.flatten_singleton]
      | tooLong hlong => exact absurd hlt (Nat.not_lt.2 hlong.le)
    · rw [if_neg hlt]
      have hsound := fetchFrom_sound h.reached expected (@Answers.unsatisfiable upstream (held disk)
        ⟨416, some upstream.length, some 0, [], false⟩ (Nat.pos_of_ne_zero hzero) rfl rfl)
      unfold fetchFrom at hsound ⊢
      simp only [show ¬ (416 : Nat) = 206 by decide, if_false, if_true] at hsound ⊢
      split
      next hall =>
        rw [if_pos hall] at hsound
        exact .inl (congrArg (Fetched.ok, ·) hsound)
      next => exact .inr ⟨_, rfl⟩

theorem downloadLoop_fully {upstream : Bytes} {disk : Disk} (h : Startable upstream disk) {expected : Option Nat}
    (hexpected : ∀ n ∈ expected, n = upstream.length) (left : Nat) :
    downloadLoop (fully upstream) expected (left + 1) disk = (.ok, some upstream) := by
  unfold downloadLoop
  split
  next hall => rw [h.reached.expected hexpected hall]
  next =>
    rcases fetchFrom_fully h expected (downloadAttempts - (left + 1)) with hok | ⟨e, hgone⟩
    · rw [hok]
    · rw [hgone]
      dsimp only
      -- without a file the whole of it is asked for
      unfold downloadLoop
      rw [if_neg fun hall => absurd hall.1 (Nat.lt_irrefl 0)]
      rcases fetchFrom_fully .absent expected (downloadAttempts - left) with hok | ⟨e', hagain⟩
      · rw [hok]
      · have hwhole : fetchFrom 0 expected none (fully upstream (downloadAttempts - left) 0) =
            (.ok, some upstream) :=
          @writeBody_fully [] upstream ⟨200, none, some upstream.length, [upstream], false⟩
            List.flatten_singleton rfl
        cases hwhole.symm.trans hagain

theorem downloadFile_ended {upstream : Bytes} {start : Disk} (hstart : Startable upstream start)
    {expected : Option Nat} (hexpected : ∀ n ∈ expected, n = upstream.length) {server : Server}
    (hserver : ∀ i offset, Answers upstream offset (server i offset)) :
    Ended upstream start (downloadFile server expected start) :=
  downloadLoop_ended hserver hexpected (downloadAttempts - 1) hstart.reached

/-- Whatever the server does over the attempts, a download that succeeds has the upstream file, and one that
fails leaves a file that a later call, finding a server that answers in full, completes. -/
theorem downloadFile_resumes {upstream : Bytes} {start : Disk} (hstart : Startable upstream start)
    {expected : Option Nat} (hexpected : ∀ n ∈ expected, n = upstream.length) {server : Server}
    (hserver : ∀ i offset, Answers upstream offset (server i offset)) :
    Ended upstream start (downloadFile server expected start) ∧
      downloadFile (fully upstream) expected (downloadFile server expected start).2 = (.ok, some upstream) := by
  have hended := downloadFile_ended hstart hexpected hserver
  refine ⟨hended, downloadLoop_fully ?_ hexpected 3⟩
  generalize downloadFile server expected start = r at hended
  obtain ⟨_ | _ | _, disk⟩ := r
  · cases hended
    exact .beginning List.prefix_rfl
  · exact hended.startable
  · exact hended.elim

/-- A connection cut after two bytes, then one that answers in full. -/
def cutOnce (upstream : Bytes) : Server := fun i offset =>
  if i = 1 ∧ offset = 0 then some ⟨200, none, some upstream.length, [upstream.take 2], true⟩
  else fully upstream i offset

theorem cutOnce_answers (upstream : Bytes) (i offset : Nat) :
    Answers upstream offset (cutOnce upstream i offset) := by
  unfold cutOnce
  split
  · refine .whole rfl rfl ?_
    show [upstream.take 2].flatten <+: upstream
    rw [List.flatten_singleton]
    exact List.take_prefix _ _
  · exact fully_answers upstream i offset

theorem downloadFile_resumes_cut :
    Ended [1, 2, 3] none (downloadFile (cutOnce [1, 2, 3]) (some 3) none) ∧
      downloadFile (fully [1, 2, 3]) (some 3) (downloadFile (cutOnce [1, 2, 3]) (some 3) none).2 =
        (.ok, some [1, 2, 3]) :=
  downloadFile_resumes .absent (fun _ h => (Option.some.inj h).symm) (cutOnce_answers _)

end Oxydllm.Hub
