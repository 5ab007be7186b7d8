/-
# Oxydllm.Hub.Pull — runs of `pull` into one directory, and what its index says.

A pull of a variant removes the index, fetches what is missing and then lists every `.gguf` entry the
directory has, those of other variants included. So what the index says is right as long as no run comes to
its end in a directory that holds a variant in part (`Tidy`).
-/
import Oxydllm.Hub.ModelDir

namespace Oxydllm.Hub

open ModelDir (entryOf isGgufEntry hasExtension)
open Serve.ToolCalls (Value)
open Serve.Harmony (isWhitespace)

/-- A repository, a git tree: what its files hold and the sizes its listing states, zero for none; the
variants its `.gguf` files are grouped into, and the other files taken with each of them. -/
structure Repo where
  content : Name → Bytes
  size : Name → Nat
  variants : List (List Name)
  metadata : List Name
  size_eq : ∀ n, size n = 0 ∨ size n = (content n).length
  flat : ∀ v ∈ variants, ∀ n ∈ v, '/' ∉ n

/-- A run of `pull`: the files of the variant chosen, and whether to start over. -/
structure Pull where
  chosen : List Name
  force : Bool

namespace Repo

/-- `(*size > 0).then_some(*size)`. -/
def expected (repo : Repo) (name : Name) : Option Nat := if 0 < repo.size name then some (repo.size name) else none

/-- There, and as long as the listing says. -/
def complete (repo : Repo) (d : ModelDir) (name : Name) : Bool :=
  d.exists? name && (repo.size name == 0 || held (d.get name) == repo.size name)

/-- The files to fetch, in order. -/
def toDownload (repo : Repo) (chosen : List Name) (d : ModelDir) : List Name :=
  let files := repo.metadata.filter (fun n => !repo.complete d n) ++ chosen
  files.filter (".json".toList.isSuffixOf ·) ++ files.filter fun n => !".json".toList.isSuffixOf n

end Repo

/-- What is removed before the first fetch. -/
def Pull.clear (p : Pull) (d : ModelDir) : ModelDir :=
  { (if p.force then p.chosen.foldl (fun d n => d.set n none) d else d) with index := none }

/-- The files fetched one after the other, all of them or up to one that fails. A run that is killed within
a file leaves what a connection lost there leaves. -/
inductive Downloads (repo : Repo) : List Name → ModelDir → Bool → ModelDir → Prop
  | done {d} : Downloads repo [] d true d
  | stopped {names d} : Downloads repo names d false d
  | next {name names d through d'} {server : Server} {disk : Disk} :
      (∀ i offset, Answers (repo.content name) offset (server i offset)) →
      downloadFile server (repo.expected name) (d.get name) = (.ok, disk) →
      Downloads repo names (d.set name disk) through d' → Downloads repo (name :: names) d through d'
  | failed {name names d} {server : Server} {e : DownloadError} {disk : Disk} :
      (∀ i offset, Answers (repo.content name) offset (server i offset)) →
      downloadFile server (repo.expected name) (d.get name) = (.err e, disk) →
      Downloads repo (name :: names) d false (d.set name disk)

/-- The names written to an index so far; a name and the break behind it are two writes. -/
inductive Written (names : List Name) : List Char → Prop
  | lines (k : Nat) : Written names (indexText (names.take k))
  | open {k : Nat} {name : Name} : names[k]? = some name → Written names (indexText (names.take k) ++ name)

/-- What a run makes of a directory, and whether it comes to the writing of the index. -/
inductive PullRun (repo : Repo) (p : Pull) (d : ModelDir) : Bool → ModelDir → Prop
  -- the listing or the header of the first file says no
  | refused : PullRun repo p d false d
  | stopped {through : Bool} {d' : ModelDir} :
      Downloads repo (repo.toDownload p.chosen (p.clear d)) (p.clear d) through d' → PullRun repo p d false d'
  | indexed {d' : ModelDir} {text : List Char} :
      Downloads repo (repo.toDownload p.chosen (p.clear d)) (p.clear d) true d' →
      Written d'.ggufEntries text → PullRun repo p d true { d' with index := some text }

/-- The directories that runs lead to. What holds before a run that comes to the writing of the index is a
parameter. -/
inductive Pulls (repo : Repo) (cond : Pull → ModelDir → Prop) : ModelDir → Prop
  | empty : Pulls repo cond .empty
  | step {p : Pull} {d d' : ModelDir} {indexed : Bool} : Pulls repo cond d → p.chosen ∈ repo.variants →
      (indexed = true → cond p d) → PullRun repo p d indexed d' → Pulls repo cond d'

/-! ## What an index says -/

/-- Every file of a variant is there in full. -/
def Repo.Whole (repo : Repo) (d : ModelDir) (variant : List Name) : Prop :=
  ∀ n ∈ variant, d.get n = some (repo.content n)

/-- An index names files that are there in full, and with it the directory passes for a whole download, and
has `.gguf` files, only by variants that are whole. -/
structure IndexSound (repo : Repo) (d : ModelDir) : Prop where
  named : ∀ text ∈ d.index, ∀ n ∈ indexNames text, d.get n = some (repo.content n)
  complete : ∀ fromSlice : Bytes → Option Value, d.index.isSome → d.isIncompleteDownload fromSlice = false →
    ∃ v ∈ repo.variants, repo.Whole d v
  found : d.index.isSome → ∀ names ∈ d.findGgufFiles, ∀ n ∈ names, ∃ v ∈ repo.variants, n ∈ v ∧ repo.Whole d v

/-- Nothing is in the directory in part but the files about to be fetched: the other `.gguf` entries belong to
variants that are whole. The names of all fit a line, and no other file makes a directory that looks like a
`.gguf` file. -/
structure Tidy (repo : Repo) (p : Pull) (d : ModelDir) : Prop where
  others : ∀ entry ∈ d.ggufEntries, entry ∉ p.chosen → ∃ v ∈ repo.variants, entry ∈ v ∧ repo.Whole d v
  plain : ∀ entry, isGgufEntry entry = true → entry ∈ p.chosen ∨ entry ∈ d.ggufEntries → Plain entry
  metadata : ∀ n ∈ repo.metadata, isGgufEntry (entryOf n) = false

/-! ## The files of a directory -/

/-- Every file is one that a download may start from. -/
def Resumable (repo : Repo) (d : ModelDir) : Prop := ∀ n, Startable (repo.content n) (d.get n)

theorem Resumable.set {repo : Repo} {d : ModelDir} (h : Resumable repo d) {name : Name} {disk : Disk}
    (hdisk : Startable (repo.content name) disk) : Resumable repo (d.set name disk) := by
  intro n
  by_cases hn : n = name
  · subst hn
    rw [ModelDir.get_set_self]
    exact hdisk
  · rw [ModelDir.get_set_ne d hn]
    exact h n

theorem Repo.expected_eq (repo : Repo) (name : Name) : ∀ n ∈ repo.expected name, n = (repo.content name).length := by
  unfold Repo.expected
  intro n hn
  split at hn
  next hpos =>
    cases hn
    exact (repo.size_eq name).resolve_left (Nat.ne_of_gt hpos)
  next => cases hn

theorem mem_toDownload {repo : Repo} {chosen : List Name} {d : ModelDir} {n : Name} :
    n ∈ repo.toDownload chosen d ↔ (n ∈ repo.metadata ∧ repo.complete d n = false) ∨ n ∈ chosen := by
  unfold Repo.toDownload
  rw [List.mem_append, List.mem_filter, List.mem_filter, ← and_or_left]
  cases ".json".toList.isSuffixOf n <;> simp [List.mem_append, List.mem_filter]

/-- What a run of downloads does: files that are not on the list stay, and those on it are there in full when
it comes to its end. -/
structure Fetches (repo : Repo) (names : List Name) (d : ModelDir) (through : Bool) (d' : ModelDir) : Prop where
  resumable : Resumable repo d'
  others : ∀ n ∉ names, d'.get n = d.get n
  index : d'.index = d.index
  whole : through = true → ∀ n ∈ names, d'.get n = some (repo.content n)

theorem Downloads.fetches {repo : Repo} {names : List Name} {d d' : ModelDir} {through : Bool}
    (h : Downloads repo names d through d') (hd : Resumable repo d) : Fetches repo names d through d' := by
  induction h with
  | done => exact ⟨hd, fun _ _ => rfl, rfl, fun _ _ hn => absurd hn List.not_mem_nil⟩
  | stopped => exact ⟨hd, fun _ _ => rfl, rfl, fun h => by cases h⟩
  | @next name names d through d' server disk hserver hok hrest ih =>
      have hended := downloadFile_ended (hd name) (repo.expected_eq name) hserver
      rw [hok] at hended
      have hdisk : disk = some (repo.content name) := hended
      subst hdisk
      obtain ⟨hresumable, hothers, hindex, hwhole⟩ := ih (hd.set (.beginning List.prefix_rfl))
      refine ⟨hresumable, fun n hn => ?_, hindex.trans (ModelDir.set_index _ _ _), fun hthrough n hn => ?_⟩
      · rw [List.mem_cons, not_or] at hn
        rw [hothers n hn.2, ModelDir.get_set_ne d hn.1]
      · by_cases hmem : n ∈ names
        · exact hwhole hthrough n hmem
        · obtain rfl : n = name := (List.mem_cons.1 hn).resolve_right hmem
          rw [hothers n hmem, ModelDir.get_set_self]
  | @failed name names d server e disk hserver herr =>
      have hended := downloadFile_ended (hd name) (repo.expected_eq name) hserver
      rw [herr] at hended
      have hreached : Reached (repo.content name) (d.get name) disk := hended
      refine ⟨hd.set hreached.startable, fun n hn => ?_, ModelDir.set_index _ _ _, fun h => by cases h⟩
      rw [List.mem_cons, not_or] at hn
      exact ModelDir.get_set_ne d hn.1 disk

/-! ## Starting over -/

theorem foldl_remove_get (d : ModelDir) (names : List Name) (n : Name) :
    (names.foldl (fun d n => d.set n none) d).get n = if n ∈ names then none else d.get n := by
  induction names generalizing d with
  | nil => rw [List.foldl_nil, if_neg List.not_mem_nil]
  | cons name names ih =>
      rw [List.foldl_cons, ih]
      by_cases hmem : n ∈ names
      · rw [if_pos hmem, if_pos (List.mem_cons_of_mem _ hmem)]
      · rw [if_neg hmem]
        by_cases hn : n = name
        · subst hn
          rw [ModelDir.get_set_self, if_pos List.mem_cons_self]
        · rw [ModelDir.get_set_ne d hn, if_neg fun h => hmem ((List.mem_cons.1 h).resolve_left hn)]

/-- A file is removed only when it is chosen. -/
theorem Pull.clear_get (p : Pull) (d : ModelDir) (n : Name) :
    (p.clear d).get n = if p.force = true ∧ n ∈ p.chosen then none else d.get n := by
  have hindex : (p.clear d).get n = (if p.force then p.chosen.foldl (fun d n => d.set n none) d else d).get n := rfl
  rw [hindex]
  cases p.force with
  | true => rw [if_pos rfl, foldl_remove_get]; simp only [true_and]
  | false => rw [if_neg Bool.false_ne_true, if_neg fun h => Bool.false_ne_true h.1]

theorem Resumable.clear {repo : Repo} {d : ModelDir} (h : Resumable repo d) (p : Pull) :
    Resumable repo (p.clear d) := by
  intro n
  rw [p.clear_get]
  split
  · exact .absent
  · exact h n

/-! ## A run -/

/-- A path without a separator is its own entry. -/
theorem entryOf_eq {n : Name} (h : '/' ∉ n) : entryOf n = n := by
  unfold ModelDir.entryOf
  rw [List.takeWhile_eq_self_iff]
  intro c hc
  exact decide_eq_true fun heq => h (heq ▸ hc)

section Indexed

variable {repo : Repo} {p : Pull} {d d' : ModelDir}

/-- The variant chosen is whole after the downloads. -/
theorem chosen_whole (h : Fetches repo (repo.toDownload p.chosen (p.clear d)) (p.clear d) true d') :
    repo.Whole d' p.chosen :=
  fun n hn => h.whole rfl n (mem_toDownload.2 (.inr hn))

/-- A variant that was whole is whole after the downloads. -/
theorem Repo.Whole.fetches (h : Fetches repo (repo.toDownload p.chosen (p.clear d)) (p.clear d) true d')
    {v : List Name} (hv : repo.Whole d v) : repo.Whole d' v := by
  intro n hn
  by_cases hmem : n ∈ repo.toDownload p.chosen (p.clear d)
  · exact h.whole rfl n hmem
  · rw [h.others n hmem, p.clear_get, if_neg fun hc => hmem (mem_toDownload.2 (.inr hc.2))]
    exact hv n hn

/-- The `.gguf` entries after the downloads are the chosen ones and those that were there. -/
theorem ggufEntries_fetches (h : Fetches repo (repo.toDownload p.chosen (p.clear d)) (p.clear d) true d')
    (hchosen : p.chosen ∈ repo.variants) (hmeta : ∀ n ∈ repo.metadata, isGgufEntry (entryOf n) = false)
    {entry : Name} (hentry : entry ∈ d'.ggufEntries) : entry ∈ p.chosen ∨ entry ∈ d.ggufEntries := by
  obtain ⟨⟨path, hpath, rfl⟩, hgguf⟩ := ModelDir.mem_ggufEntries.1 hentry
  by_cases hmem : path ∈ repo.toDownload p.chosen (p.clear d)
  · rcases mem_toDownload.1 hmem with ⟨hm, -⟩ | hc
    · rw [hmeta path hm] at hgguf
      cases hgguf
    · left
      rw [entryOf_eq (repo.flat _ hchosen _ hc)]
      exact hc
  · right
    rw [h.others path hmem, p.clear_get, if_neg fun hc => hmem (mem_toDownload.2 (.inr hc.2))] at hpath
    exact ModelDir.mem_ggufEntries.2 ⟨⟨path, hpath, rfl⟩, hgguf⟩

/-- Each entry after the downloads is of a variant that is whole. -/
theorem Tidy.entries (htidy : Tidy repo p d) (hchosen : p.chosen ∈ repo.variants)
    (h : Fetches repo (repo.toDownload p.chosen (p.clear d)) (p.clear d) true d') :
    ∀ entry ∈ d'.ggufEntries, Plain entry ∧ ∃ v ∈ repo.variants, entry ∈ v ∧ repo.Whole d' v := by
  intro entry hentry
  have hgguf := (ModelDir.mem_ggufEntries.1 hentry).2
  have hold := ggufEntries_fetches h hchosen htidy.metadata hentry
  refine ⟨htidy.plain entry hgguf hold, ?_⟩
  by_cases hc : entry ∈ p.chosen
  · exact ⟨p.chosen, hchosen, hc, chosen_whole h⟩
  · obtain ⟨v, hv, hmem, hwhole⟩ := htidy.others entry (hold.resolve_left hc) hc
    exact ⟨v, hv, hmem, hwhole.fetches h⟩

end Indexed

/-- The lines of an index, however far it is written. -/
theorem Written.lines_eq {names : List Name} {text : List Char} (h : Written names text)
    (hplain : ∀ n ∈ names, Plain n) : ∃ k, linesFrom [] text = names.take k := by
  have htake : ∀ k, ∀ n ∈ names.take k, Plain n := fun k n hn => hplain n (List.mem_of_mem_take hn)
  cases h with
  | lines k =>
      refine ⟨k, ?_⟩
      rw [← List.append_nil (indexText _), linesFrom_indexText (htake k)]
      exact List.append_nil _
  | @«open» k name hname =>
      have hmem := hplain name (List.mem_of_getElem? hname)
      refine ⟨k + 1, ?_⟩
      rw [linesFrom_indexText (htake k), linesFrom_last [] name hmem.no_break hmem.ne_nil, List.take_add_one, hname]
      rfl

theorem Written.mem {names : List Name} {text : List Char} (h : Written names text)
    (hplain : ∀ n ∈ names, Plain n) {n : Name} (hn : n ∈ indexNames text) : n ∈ names := by
  obtain ⟨k, hlines⟩ := h.lines_eq hplain
  rw [indexNames_eq (fun n hn => hplain n (List.mem_of_mem_take hn)) hlines] at hn
  exact List.mem_of_mem_take (List.mem_filter.1 hn).1

/-- A directory whose `.gguf` entries are all of whole variants, with an index written of them. -/
theorem IndexSound.of_entries {repo : Repo} {d : ModelDir} {v : List Name} (hv : v ∈ repo.variants)
    (hwhole : repo.Whole d v)
    (h : ∀ entry ∈ d.ggufEntries, Plain entry ∧ ∃ v ∈ repo.variants, entry ∈ v ∧ repo.Whole d v)
    {text : List Char} (htext : Written d.ggufEntries text) : IndexSound repo { d with index := some text } := by
  have hnames : ∀ n ∈ indexNames text, ∃ v ∈ repo.variants, n ∈ v ∧ repo.Whole d v :=
    fun n hn => (h n (htext.mem (fun n hn => (h n hn).1) hn)).2
  refine ⟨fun text' htext' n hn => ?_, fun _ _ _ => ⟨v, hv, hwhole⟩, fun _ names hfound n hn => ?_⟩
  · cases htext'
    obtain ⟨v, -, hmem, hwhole⟩ := hnames n hn
    exact hwhole n hmem
  · unfold ModelDir.findGgufFiles at hfound
    dsimp only [Option.map_some, Option.getD_some] at hfound
    split at hfound
    · cases hfound
      exact hnames n hn
    · split at hfound
      · cases hfound
      · cases hfound
        exact (h n hn).2

theorem IndexSound.of_no_index {repo : Repo} {d : ModelDir} (h : d.index = none) : IndexSound repo d := by
  refine ⟨fun text htext => ?_, fun _ hsome => ?_, fun hsome => ?_⟩
  · rw [h] at htext
    cases htext
  · rw [h] at hsome
    cases hsome
  · rw [h] at hsome
    cases hsome

/-- A run that starts in a tidy directory, or does not come to the index, leaves an index that is right. -/
theorem PullRun.sound {repo : Repo} {p : Pull} {d d' : ModelDir} {indexed : Bool}
    (h : PullRun repo p d indexed d') (hchosen : p.chosen ∈ repo.variants) (htidy : indexed = true → Tidy repo p d)
    (hd : Resumable repo d ∧ IndexSound repo d) : Resumable repo d' ∧ IndexSound repo d' := by
  cases h with
  | refused => exact hd
  | stopped hdown =>
      have hfetches := hdown.fetches (hd.1.clear p)
      exact ⟨hfetches.resumable, .of_no_index hfetches.index⟩
  | indexed hdown htext =>
      have hfetches := hdown.fetches (hd.1.clear p)
      exact ⟨hfetches.resumable,
        .of_entries hchosen (chosen_whole hfetches) ((htidy rfl).entries hchosen hfetches) htext⟩

/-- When every run that comes to the writing of the index starts in a tidy directory, the index is right after
every run, those that stop somewhere included. -/
theorem Pulls.index_sound {repo : Repo} {d : ModelDir} (h : Pulls repo (Tidy repo) d) : IndexSound repo d := by
  have hboth : Resumable repo d ∧ IndexSound repo d := by
    induction h with
    | empty => exact ⟨fun _ => .absent, .of_no_index rfl⟩
    | step _ hchosen htidy hrun ih => exact hrun.sound hchosen htidy ih
  exact hboth.2

/-! ## Two variants -/

def nameA : Name := ['a', '.', 'g', 'g', 'u', 'f']

def nameB : Name := ['b', '.', 'g', 'g', 'u', 'f']

theorem plain_gguf {c : Char} (hbreak : '\n' ≠ c) (hspace : isWhitespace c = false) :
    Plain [c, '.', 'g', 'g', 'u', 'f'] := by
  refine ⟨List.cons_ne_nil _ _, ?_, fun c' hc => ?_, fun c' hc => ?_⟩
  · exact fun h => (List.mem_cons.1 h).elim hbreak (by decide)
  · cases hc
    exact hspace
  · cases hc
    rfl

theorem plainA : Plain nameA := plain_gguf (by decide) rfl

theorem plainB : Plain nameB := plain_gguf (by decide) rfl

/-- Two variants of one file each. -/
def twoVariants : Repo where
  content := fun n => if n = nameA then [1, 2] else [3]
  size := fun _ => 0
  variants := [[nameA], [nameB]]
  metadata := []
  size_eq := fun _ => .inl rfl
  flat := by decide

/-- A server that is lost after the first byte. -/
def firstByte (upstream : Bytes) : Server := fun i offset =>
  if i = 1 ∧ offset = 0 then some ⟨200, none, some upstream.length, [upstream.take 1], true⟩ else none

theorem firstByte_answers (upstream : Bytes) (i offset : Nat) :
    Answers upstream offset (firstByte upstream i offset) := by
  unfold firstByte
  split
  · refine .whole rfl rfl ?_
    show [upstream.take 1].flatten <+: upstream
    rw [List.flatten_singleton]
    exact List.take_prefix _ _
  · exact .failed

/-- The file of one variant, of which a byte has come. -/
def oneByte : ModelDir := ⟨[(nameA, [1])], none⟩

/-- The other variant's file behind it, and the index. -/
def withSecond (d : ModelDir) : ModelDir :=
  { d.set nameB (some [3]) with index := some (indexText (d.set nameB (some [3])).ggufEntries) }

theorem oneByte_pulled : PullRun twoVariants ⟨[nameA], false⟩ .empty false oneByte := by
  have hdown : Downloads twoVariants [nameA] .empty false oneByte :=
    @Downloads.failed twoVariants nameA [] .empty (firstByte [1, 2]) (.stoppedShort .send) (some [1])
      (firstByte_answers [1, 2]) rfl
  exact .stopped hdown

/-- A pull of the second variant that comes to its end. -/
theorem withSecond_pulled {d : ModelDir} (hindex : d.index = none) (hnone : d.get nameB = none) :
    PullRun twoVariants ⟨[nameB], false⟩ d true (withSecond d) := by
  have hclear : Pull.clear ⟨[nameB], false⟩ d = d := by
    obtain ⟨files, index⟩ := d
    cases hindex
    rfl
  have hdown : Downloads twoVariants [nameB] d true (d.set nameB (some [3])) := by
    refine .next (fully_answers _) ?_ .done
    rw [hnone]
    rfl
  have hwritten := @Written.lines (d.set nameB (some [3])).ggufEntries (d.set nameB (some [3])).ggufEntries.length
  rw [List.take_length] at hwritten
  refine .indexed ?_ hwritten
  rw [hclear]
  exact hdown

theorem Pulls.index_sound_second : IndexSound twoVariants (withSecond .empty) := by
  have htidy : Tidy twoVariants ⟨[nameB], false⟩ .empty := by
    have hempty : ∀ entry, entry ∉ ModelDir.empty.ggufEntries := fun entry hentry =>
      (ModelDir.mem_ggufEntries.1 hentry).1.elim fun path hpath => hpath.1 rfl
    refine ⟨fun entry hentry => absurd hentry (hempty entry), fun entry _ hentry => ?_, fun n hn => ?_⟩
    · cases List.mem_singleton.1 (hentry.resolve_right (hempty entry))
      exact plainB
    · cases hn
  have hmem : [nameB] ∈ twoVariants.variants := by decide
  exact Pulls.index_sound (.step .empty hmem (fun _ => htidy) (withSecond_pulled rfl rfl))

/-- A variant left behind in part is listed by the pull of another. -/
theorem Pulls.not_index_sound :
    ∃ d, Pulls twoVariants (fun _ _ => True) d ∧ ¬ IndexSound twoVariants d := by
  have hfirst : Pulls twoVariants (fun _ _ => True) oneByte :=
    .step .empty (show [nameA] ∈ twoVariants.variants by decide) (fun _ => trivial) oneByte_pulled
  refine ⟨withSecond oneByte, .step hfirst (show [nameB] ∈ twoVariants.variants by decide) (fun _ => trivial)
    (withSecond_pulled rfl rfl), fun hsound => ?_⟩
  have hfilter : (oneByte.set nameB (some [3])).entries.filter isGgufEntry = [nameB, nameA] := by decide
  have hmem : ∀ n, n ∈ (oneByte.set nameB (some [3])).ggufEntries ↔ n ∈ [nameB, nameA] := by
    intro n
    unfold ModelDir.ggufEntries
    rw [hfilter, List.mem_mergeSort]
  have hplain : ∀ n ∈ (oneByte.set nameB (some [3])).ggufEntries, Plain n := by
    intro n hn
    rcases List.mem_cons.1 ((hmem n).1 hn) with rfl | hn
    · exact plainB
    · cases List.mem_singleton.1 hn
      exact plainA
  have hlines := linesFrom_indexText hplain []
  rw [List.append_nil] at hlines
  have hnamed : nameA ∈ indexNames (indexText (oneByte.set nameB (some [3])).ggufEntries) := by
    rw [indexNames_eq hplain (hlines.trans (List.append_nil _))]
    exact List.mem_filter.2 ⟨(hmem nameA).2 (by decide), by decide⟩
  -- the file named holds one byte of two
  cases hsound.named _ rfl nameA hnamed

end Oxydllm.Hub
