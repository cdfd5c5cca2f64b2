import Mathlib.Data.Char
import Mathlib.Data.Finset.Sort
import Mathlib.Data.List.Infix
import Mathlib.Data.List.Lex
import Mathlib.Logic.Relation
import Memlog.Tool.Basic

/-!
# Running an analysis: `run.py`

A query with the token `{bench}` is run for one benchmark after the other, and the rows of each are
appended to `result.csv`. A run that an exception ends is taken up by the next one, which reads off
the file which benchmarks it need not run. The file is at all times what the run of an initial part
of the benchmarks writes (`Begun`): an attempt keeps that (`Begun.aborted`), and so does any number
of them, so the run that completes writes what a single run would have written (`resume_exact`).
-/

namespace Memlog.Query.Harness

/-! ## The harness -/

/-- A data frame, with its values as `to_csv` writes them. -/
structure DataFrame where
  columns : List Line
  rows : List (List Line)
deriving DecidableEq

/-- The records of a CSV file; the first one is the header. -/
abbrev Csv := List (List Line)

/-- The folder of an analysis: `result.csv`, and whether there is a `result.complete`. -/
structure Folder where
  csv : Option Csv
  complete : Bool
deriving DecidableEq

/-- What ends a run. -/
inductive DbError where
  | interrupted
deriving DecidableEq

/-- A part of a run; what it has written stays when an exception ends it. -/
abbrev RunM := ExceptT DbError (StateM Folder)

/-- The queries in which an exception is raised during a run: those for a benchmark, or the one that
is not for one. -/
abbrev Interrupts := Option Line → Bool

/-- The token that stands for the name of a benchmark. -/
def benchToken : Line := "\x7bbench\x7d".toList

/-- `"{bench}" in sql`. -/
def hasBench (sql : Line) : Bool := benchToken <:+: sql

/-- `str.replace`, where `skip` is the number of characters that still belong to an occurrence. -/
def replaceFrom (old new : Line) : Nat → Line → Line
  | _, [] => []
  | skip + 1, _ :: text => replaceFrom old new skip text
  | 0, c :: text =>
    if old.isPrefixOf (c :: text) then new ++ replaceFrom old new (old.length - 1) text
    else c :: replaceFrom old new 0 text

/-- `sql.replace("{bench}", bench)`. -/
def replaceBench (sql bench : Line) : Line := replaceFrom benchToken bench 0 sql

/-- The benchmarks are the stems of the parquet files. -/
def listBenches (files : Finset Line) : List Line := files.sort (· ≤ ·)

/-- `pd.read_csv`, which raises on a file without a header. -/
def readCsv : Csv → Option DataFrame
  | [] => none
  | header :: rows => some ⟨header, rows⟩

/-- `df[name]`. -/
def DataFrame.column (df : DataFrame) (name : Line) : List Line :=
  df.rows.filterMap fun row => row[df.columns.idxOf name]?

/-- The benchmarks that are completed, as far as the file of an earlier run tells. -/
def completedBenches (csv : Option Csv) : List Line :=
  match csv.bind readCsv with
  | none => []
  | some prev => if "bench".toList ∈ prev.columns then prev.column "bench".toList else []

/-- `df.to_csv(out_path, mode, header)`: with the header the file is written anew, without it the
rows are appended. -/
def toCsv (writeHeader : Bool) (df : DataFrame) (csv : Option Csv) : Csv :=
  if writeHeader then df.columns :: df.rows else csv.getD [] ++ df.rows

section Run

variable (db : Line → DataFrame) (raises : Interrupts) (sql : Line)

/-- `con.execute(text).fetchdf()`. -/
def execute (bench : Option Line) (text : Line) : RunM DataFrame :=
  if raises bench then throw .interrupted else pure (db text)

/-- The loop over the benchmarks. -/
def runBenches : Bool → List Line → RunM Unit
  | _, [] => pure ()
  | writeHeader, bench :: todo => do
    let resultDf ← execute db raises (some bench) (replaceBench sql bench)
    modifyThe Folder fun folder =>
      { folder with csv := some (toCsv writeHeader resultDf folder.csv) }
    runBenches false todo

def runQuery (files : Finset Line) : RunM Unit := do
  let folder ← get
  if folder.complete then return
  if hasBench sql then
    let benches := listBenches files
    let completed := completedBenches folder.csv
    let todo := benches.filter fun bench => bench ∉ completed
    runBenches db raises sql (folder.csv.isNone || completed.isEmpty) todo
  else
    let df ← execute db raises none sql
    modifyThe Folder fun folder => { folder with csv := some (toCsv true df folder.csv) }
  modifyThe Folder fun folder => { folder with complete := true }

end Run

/-- What `main` does to every folder before it runs an analysis. -/
def migrate (sql : Line) (folder : Folder) : Folder :=
  if folder.csv.isSome && !folder.complete && !hasBench sql then { folder with complete := true }
  else folder

/-! ## Attempts -/

/-- **The rows carry their benchmark**: the column `bench` of what the query returns for a benchmark
has its name. -/
def CarriesBench (db : Line → DataFrame) (sql : Line) (files : Finset Line) : Prop :=
  ∃ i, ∀ bench ∈ files,
    let df := db (replaceBench sql bench)
    "bench".toList ∈ df.columns ∧ df.columns.idxOf "bench".toList = i ∧
      ∀ row ∈ df.rows, row[i]? = some bench

/-- An invocation that does not complete the analysis: an exception ends its `run_query`, or it is
about another analysis and only looks for folders to migrate. -/
inductive Attempt (db : Line → DataFrame) (sql : Line) (files : Finset Line) :
    Folder → Folder → Prop
  | aborted {folder folder' : Folder} {raises : Interrupts} {e : DbError}
    (h : runQuery db raises sql files folder = (.error e, folder')) :
    Attempt db sql files folder folder'
  | migrated (folder : Folder) : Attempt db sql files folder (migrate sql folder)

/-- What a run over these benchmarks writes. -/
def written (db : Line → DataFrame) (sql : Line) : List Line → Option Csv
  | [] => none
  | bench :: benches =>
    some ((db (replaceBench sql bench)).columns ::
      (bench :: benches).flatMap fun bench => (db (replaceBench sql bench)).rows)

/-! ## One run -/

section Loop

variable {db : Line → DataFrame} {raises : Interrupts} {sql : Line}

theorem runBenches_raises {bench : Line} (h : raises (some bench)) (writeHeader : Bool)
    (todo : List Line) (folder : Folder) :
    runBenches db raises sql writeHeader (bench :: todo) folder =
      (.error .interrupted, folder) := by
  simp only [runBenches, execute, if_pos h]
  rfl

theorem runBenches_cons {bench : Line} (h : ¬raises (some bench)) (writeHeader : Bool)
    (todo : List Line) (folder : Folder) :
    runBenches db raises sql writeHeader (bench :: todo) folder =
      runBenches db raises sql false todo { folder with
        csv := some (toCsv writeHeader (db (replaceBench sql bench)) folder.csv) } := by
  simp only [runBenches, execute, if_neg h]
  rfl

variable (db raises sql) in
/-- **Appending**: the rows of the benchmarks up to the exception are appended, in order. -/
theorem runBenches_append (todo : List Line) (folder : Folder) {csv : Csv}
    (hcsv : folder.csv = some csv) :
    ∃ ran rest, todo = ran ++ rest ∧
      (runBenches db raises sql false todo folder).2 = { folder with
        csv := some (csv ++ ran.flatMap fun bench => (db (replaceBench sql bench)).rows) } ∧
      ((runBenches db raises sql false todo folder).1 = .ok () → rest = []) := by
  induction todo generalizing folder csv with
  | nil =>
    refine ⟨[], [], rfl, ?_, fun _ => rfl⟩
    rw [List.flatMap_nil, List.append_nil, ← hcsv]
    rfl
  | cons bench todo ih =>
    by_cases h : raises (some bench)
    · refine ⟨[], bench :: todo, rfl, ?_, ?_⟩
      · rw [runBenches_raises h, List.flatMap_nil, List.append_nil, ← hcsv]
      · rw [runBenches_raises h]
        exact fun hok => nomatch hok
    · obtain ⟨ran, rest, rfl, hfolder, hok⟩ := ih { folder with
        csv := some (toCsv false (db (replaceBench sql bench)) folder.csv) } rfl
      rw [runBenches_cons h]
      refine ⟨bench :: ran, rest, rfl, hfolder.trans ?_, hok⟩
      rw [hcsv, toCsv, if_neg Bool.false_ne_true, Option.getD_some, List.flatMap_cons,
        List.append_assoc]

variable (db raises sql) in
/-- **Writing anew**: the header comes from the first benchmark, and nothing is written before its
query returns. -/
theorem runBenches_anew (todo : List Line) (folder : Folder) :
    ∃ ran rest, todo = ran ++ rest ∧
      (runBenches db raises sql true todo folder).2 =
        (if ran = [] then folder else { folder with csv := written db sql ran }) ∧
      ((runBenches db raises sql true todo folder).1 = .ok () → rest = []) := by
  cases todo with
  | nil => exact ⟨[], [], rfl, rfl, fun _ => rfl⟩
  | cons bench todo =>
    by_cases h : raises (some bench)
    · refine ⟨[], bench :: todo, rfl, ?_, ?_⟩
      · rw [runBenches_raises h, if_pos rfl]
      · rw [runBenches_raises h]
        exact fun hok => nomatch hok
    · obtain ⟨ran, rest, rfl, hfolder, hok⟩ := runBenches_append db raises sql todo { folder with
        csv := some (toCsv true (db (replaceBench sql bench)) folder.csv) } rfl
      rw [runBenches_cons h]
      refine ⟨bench :: ran, rest, rfl, hfolder.trans ?_, hok⟩
      rw [if_neg (List.cons_ne_nil _ _), written, toCsv, if_pos rfl, List.flatMap_cons,
        List.cons_append]

variable (db raises sql) in
theorem runQuery_of_complete (files : Finset Line) {folder : Folder} (h : folder.complete = true) :
    runQuery db raises sql files folder = (.ok (), folder) := by
  change (if folder.complete then _ else _ : RunM Unit) folder = _
  rw [if_pos h]
  rfl

/-- A run is the loop over the benchmarks that are left, and the sentinel after it. -/
theorem runQuery_of_hasBench (hsql : hasBench sql = true) (files : Finset Line) {folder : Folder}
    (h : folder.complete = false) :
    runQuery db raises sql files folder =
      match runBenches db raises sql (folder.csv.isNone || (completedBenches folder.csv).isEmpty)
        ((listBenches files).filter fun bench => bench ∉ completedBenches folder.csv) folder with
      | (.ok (), folder') => (.ok (), { folder' with complete := true })
      | (.error e, folder') => (.error e, folder') := by
  change (if folder.complete then _ else if hasBench sql then _ else _ : RunM Unit) folder = _
  rw [if_neg (by rw [h]; exact Bool.false_ne_true), if_pos hsql]
  simp only [bind, ExceptT.bind, ExceptT.mk, ExceptT.bindCont, StateT.bind, decide_not]
  generalize runBenches db raises sql _ _ folder = out
  obtain ⟨res, folder'⟩ := out
  cases res with
  | ok _ => rfl
  | error e => rfl

variable (db sql) in
/-- No exception is raised. -/
theorem runBenches_uninterrupted (writeHeader : Bool) (todo : List Line) (folder : Folder) :
    ∃ folder', runBenches db (fun _ => false) sql writeHeader todo folder = (.ok (), folder') := by
  induction todo generalizing writeHeader folder with
  | nil => exact ⟨folder, rfl⟩
  | cons bench todo ih =>
    rw [runBenches_cons Bool.false_ne_true]
    exact ih _ _

variable (db) in
theorem runQuery_uninterrupted (hsql : hasBench sql = true) (files : Finset Line) {folder : Folder}
    (h : folder.complete = false) :
    ∃ folder', runQuery db (fun _ => false) sql files folder = (.ok (), folder') := by
  rw [runQuery_of_hasBench hsql files h]
  obtain ⟨folder', hout⟩ := runBenches_uninterrupted db sql
    (folder.csv.isNone || (completedBenches folder.csv).isEmpty)
    ((listBenches files).filter fun bench => bench ∉ completedBenches folder.csv) folder
  rw [hout]
  exact ⟨_, rfl⟩

theorem migrate_of_hasBench (hsql : hasBench sql = true) (folder : Folder) :
    migrate sql folder = folder := by
  rw [migrate, hsql, Bool.not_true, Bool.and_false, if_neg Bool.false_ne_true]

end Loop

/-! ## Any number of runs -/

section Runs

variable {db : Line → DataFrame} {sql : Line} {files : Finset Line}

/-- The file is what a run over an initial part of the benchmarks writes. -/
def Begun (db : Line → DataFrame) (sql : Line) (files : Finset Line) (folder : Folder) : Prop :=
  ∃ ran rest, listBenches files = ran ++ rest ∧ folder.csv = written db sql ran

/-- **What the file tells**: the benchmarks that have been run and have rows. -/
theorem mem_completedBenches (hcarries : CarriesBench db sql files) {ran : List Line}
    (hran : ∀ bench ∈ ran, bench ∈ files) {bench : Line} :
    bench ∈ completedBenches (written db sql ran) ↔
      bench ∈ ran ∧ (db (replaceBench sql bench)).rows ≠ [] := by
  obtain ⟨i, hi⟩ := hcarries
  cases ran with
  | nil => simp [completedBenches, written]
  | cons first ran =>
    obtain ⟨hcolumn, hindex, -⟩ := hi first (hran first List.mem_cons_self)
    simp only [completedBenches, written, readCsv, Option.bind_some, if_pos hcolumn,
      DataFrame.column, hindex, List.mem_filterMap, List.mem_flatMap]
    constructor
    · rintro ⟨row, ⟨bench', hbench', hrow⟩, hname⟩
      rw [(hi bench' (hran bench' hbench')).2.2 row hrow] at hname
      cases hname
      exact ⟨hbench', List.ne_nil_of_mem hrow⟩
    · rintro ⟨hbench, hne⟩
      obtain ⟨row, hrow⟩ := List.exists_mem_of_ne_nil _ hne
      exact ⟨row, ⟨bench, hbench, hrow⟩, (hi bench (hran bench hbench)).2.2 row hrow⟩

theorem mem_files_of_prefix {ran rest : List Line} (h : listBenches files = ran ++ rest) :
    ∀ bench ∈ ran, bench ∈ files := by
  intro bench hbench
  refine (Finset.mem_sort (· ≤ ·)).1 ?_
  change bench ∈ listBenches files
  rw [h]
  exact List.mem_append_left rest hbench

/-- The benchmarks that are left: those that have been run and have no rows, which do no harm, and
those that have not been run. -/
theorem todo_eq (hcarries : CarriesBench db sql files) {ran rest : List Line}
    (hbenches : listBenches files = ran ++ rest) :
    ((listBenches files).filter fun bench => bench ∉ completedBenches (written db sql ran)) =
      (ran.filter fun bench => (db (replaceBench sql bench)).rows = []) ++ rest := by
  have hran := mem_files_of_prefix hbenches
  have hnodup : (ran ++ rest).Nodup := hbenches ▸ Finset.sort_nodup files (· ≤ ·)
  rw [hbenches, List.filter_append]
  congr 1
  · refine List.filter_congr fun bench hbench => ?_
    simp only [mem_completedBenches hcarries hran, hbench, true_and, not_not]
  · refine List.filter_eq_self.2 fun bench hbench => ?_
    rw [decide_eq_true_eq, mem_completedBenches hcarries hran]
    exact fun h => (List.disjoint_of_nodup_append hnodup) h.1 hbench

theorem written_append {first : Line} {ran : List Line} (more : List Line) :
    written db sql (first :: ran ++ more) = some ((db (replaceBench sql first)).columns ::
      (first :: ran).flatMap (fun bench => (db (replaceBench sql bench)).rows) ++
        more.flatMap fun bench => (db (replaceBench sql bench)).rows) := by
  change some (_ :: (first :: ran ++ more).flatMap _) = _
  rw [List.flatMap_append]
  rfl

/-- What has been run of the benchmarks that are left writes the rows of an initial part of those
that have not been run before. -/
theorem exists_more {quiet rest ran' rest' : List Line}
    (hquiet : ∀ bench ∈ quiet, (db (replaceBench sql bench)).rows = [])
    (h : quiet ++ rest = ran' ++ rest') : ∃ more rest'', rest = more ++ rest'' ∧
      (ran'.flatMap fun bench => (db (replaceBench sql bench)).rows) =
        (more.flatMap fun bench => (db (replaceBench sql bench)).rows) ∧
      (rest' = [] → rest'' = []) := by
  rcases List.append_eq_append_iff.1 h with ⟨more, rfl, rfl⟩ | ⟨left, rfl, rfl⟩
  · refine ⟨more, rest', rfl, ?_, id⟩
    rw [List.flatMap_append, List.flatMap_eq_nil_iff.2 hquiet, List.nil_append]
  · refine ⟨[], rest, rfl, ?_, fun hnil => (List.append_eq_nil_iff.1 hnil).2⟩
    exact List.flatMap_eq_nil_iff.2 fun bench hbench =>
      hquiet bench (List.mem_append_left left hbench)

/-- What the loop of a run leaves of a folder. -/
structure Advances (db : Line → DataFrame) (sql : Line) (files : Finset Line) (folder : Folder)
    (out : Except DbError Unit × Folder) : Prop where
  complete : out.2.complete = folder.complete
  begun : Begun db sql files out.2
  all : out.1 = .ok () → out.2.csv = written db sql (listBenches files)

section TakeUp

variable (raises : Interrupts) {folder : Folder} {ran rest : List Line}
  (hbenches : listBenches files = ran ++ rest) (hcsv : folder.csv = written db sql ran)
include hbenches hcsv

/-- No row has been written: the file is written anew. -/
theorem runBenches_of_no_rows :
    Advances db sql files folder (runBenches db raises sql true (listBenches files) folder) := by
  obtain ⟨ran', rest', hbenches', hfolder, hok⟩ :=
    runBenches_anew db raises sql (listBenches files) folder
  by_cases hran' : ran' = []
  · rw [if_pos hran'] at hfolder
    refine ⟨by rw [hfolder], ⟨ran, rest, hbenches, by rw [hfolder, hcsv]⟩, fun hdone => ?_⟩
    have hnil : listBenches files = [] := by rw [hbenches', hran', hok hdone, List.append_nil]
    rw [hfolder, hcsv, hnil, (List.append_eq_nil_iff.1 (hbenches.symm.trans hnil)).1]
  · rw [if_neg hran'] at hfolder
    refine ⟨by rw [hfolder], ⟨ran', rest', hbenches', by rw [hfolder]⟩, fun hdone => ?_⟩
    rw [hfolder, hbenches', hok hdone, List.append_nil]

/-- Rows have been written: those that are missing are appended. -/
theorem runBenches_of_rows (hne : ran ≠ []) :
    Advances db sql files folder (runBenches db raises sql false
      ((ran.filter fun bench => (db (replaceBench sql bench)).rows = []) ++ rest) folder) := by
  obtain ⟨first, ran, rfl⟩ := List.exists_cons_of_ne_nil hne
  obtain ⟨ran', rest', htodo, hfolder, hok⟩ := runBenches_append db raises sql
    (((first :: ran).filter fun bench => (db (replaceBench sql bench)).rows = []) ++ rest) folder
      hcsv
  obtain ⟨more, rest'', rfl, hmore, hrest⟩ := exists_more
    (fun bench hbench => of_decide_eq_true (List.mem_filter.1 hbench).2) htodo
  rw [← List.append_assoc] at hbenches
  rw [hmore, ← written_append] at hfolder
  refine ⟨by rw [hfolder], ⟨first :: ran ++ more, rest'', hbenches, by rw [hfolder]⟩,
    fun hdone => ?_⟩
  rw [hfolder, hbenches, hrest (hok hdone), List.append_nil]

end TakeUp

variable (hcarries : CarriesBench db sql files)
include hcarries

/-- **The loop of a run** takes up an earlier run where the file says that it ended. -/
theorem Begun.runBenches (raises : Interrupts) {folder : Folder} (h : Begun db sql files folder) :
    Advances db sql files folder (Harness.runBenches db raises sql
      (folder.csv.isNone || (completedBenches folder.csv).isEmpty)
      ((listBenches files).filter fun bench => bench ∉ completedBenches folder.csv) folder) := by
  obtain ⟨ran, rest, hbenches, hcsv⟩ := h
  rw [hcsv]
  cases hempty : (completedBenches (written db sql ran)).isEmpty with
  | true =>
    have htodo : ((listBenches files).filter fun bench =>
        bench ∉ completedBenches (written db sql ran)) = listBenches files := by
      refine List.filter_eq_self.2 fun bench _ => decide_eq_true ?_
      rw [List.isEmpty_iff.1 hempty]
      exact List.not_mem_nil
    rw [Bool.or_true, htodo]
    exact runBenches_of_no_rows raises hbenches hcsv
  | false =>
    have hne : ran ≠ [] := by
      rintro rfl
      cases hempty
    have hsome : (written db sql ran).isNone = false := by
      obtain ⟨first, ran', rfl⟩ := List.exists_cons_of_ne_nil hne
      rfl
    rw [hsome, Bool.or_false, todo_eq hcarries hbenches]
    exact runBenches_of_rows raises hbenches hcsv hne

variable (hsql : hasBench sql = true)
include hsql

section OneRun

variable {folder folder' : Folder} (hbegun : Begun db sql files folder)
  (hcomplete : folder.complete = false) {raises : Interrupts}
include hbegun hcomplete

/-- **A run that an exception ends** leaves no sentinel, and the file of an initial part of the
benchmarks. -/
theorem Begun.aborted {e : DbError}
    (h : runQuery db raises sql files folder = (.error e, folder')) :
    folder'.complete = false ∧ Begun db sql files folder' := by
  have hadv := hbegun.runBenches hcarries raises
  rw [runQuery_of_hasBench hsql files hcomplete] at h
  split at h
  · cases h
  · next hout =>
    rw [hout] at hadv
    cases h
    exact ⟨hadv.complete.trans hcomplete, hadv.begun⟩

/-- **A run that completes** leaves the sentinel, and the file of all benchmarks. -/
theorem Begun.completed (h : runQuery db raises sql files folder = (.ok (), folder')) :
    folder' = ⟨written db sql (listBenches files), true⟩ := by
  have hadv := hbegun.runBenches hcarries raises
  rw [runQuery_of_hasBench hsql files hcomplete] at h
  split at h
  · next hout =>
    rw [hout] at hadv
    cases h
    rw [← hadv.all rfl]
  · cases h

end OneRun

/-- The folders that attempts lead to. -/
theorem begun_of_attempts {start stopped : Folder} (hstart : start.csv = none)
    (hcomplete : start.complete = false)
    (h : Relation.ReflTransGen (Attempt db sql files) start stopped) :
    stopped.complete = false ∧ Begun db sql files stopped := by
  induction h with
  | refl => exact ⟨hcomplete, [], listBenches files, rfl, hstart⟩
  | tail _ hattempt ih =>
    obtain ⟨hkept, hbegun⟩ := ih
    cases hattempt with
    | aborted h => exact hbegun.aborted hcarries hsql hkept h
    | migrated =>
      rw [migrate_of_hasBench hsql]
      exact ⟨hkept, hbegun⟩

end Runs

/-- **Resuming is exact.** After any number of attempts that an exception has ended, there is no
sentinel, and the run that completes leaves the folder that a single run leaves: the header, and the
rows of all benchmarks in order. -/
theorem resume_exact (db : Line → DataFrame) (sql : Line) (files : Finset Line)
    (hsql : hasBench sql = true) (hcarries : CarriesBench db sql files) (start stopped : Folder)
    (hstart : start.csv = none)
    (hattempts : Relation.ReflTransGen (Attempt db sql files) start stopped) :
    (start.complete = false → stopped.complete = false) ∧
    ∀ raises final, runQuery db raises sql files stopped = (.ok (), final) →
      runQuery db (fun _ => false) sql files start = (.ok (), final) ∧
      (start.complete = false → final = ⟨written db sql (listBenches files), true⟩) := by
  cases hcomplete : start.complete with
  | false =>
    obtain ⟨hkept, hbegun⟩ := begun_of_attempts hcarries hsql hstart hcomplete hattempts
    refine ⟨fun _ => hkept, fun raises final hfinal => ?_⟩
    have hall := hbegun.completed hcarries hsql hkept hfinal
    obtain ⟨single, hsingle⟩ := runQuery_uninterrupted db hsql files hcomplete
    have hbegun' : Begun db sql files start := ⟨[], listBenches files, rfl, hstart⟩
    rw [hsingle, hall, hbegun'.completed hcarries hsql hcomplete hsingle]
    exact ⟨rfl, fun _ => rfl⟩
  | true =>
    -- a complete analysis is skipped, and no exception ends that
    have hsame : stopped = start := by
      clear hstart
      induction hattempts with
      | refl => rfl
      | tail _ hattempt ih =>
        subst ih
        cases hattempt with
        | aborted h =>
          rw [runQuery_of_complete db _ sql files hcomplete] at h
          cases h
        | migrated => exact migrate_of_hasBench hsql _
    subst hsame
    refine ⟨nofun, fun raises final hfinal => ⟨?_, nofun⟩⟩
    rw [runQuery_of_complete db _ sql files hcomplete] at hfinal ⊢
    exact hfinal

/-- A query that returns rows for the benchmarks `a` and `c`, and none for `b`. -/
def rowsSql : Line := "SELECT '\x7bbench\x7d' AS bench, n FROM \x7bbench\x7d".toList

def rowsDb (text : Line) : DataFrame where
  columns := ["bench".toList, "n".toList]
  rows :=
    if text = "SELECT 'a' AS bench, n FROM a".toList then [["a".toList, "1".toList]]
    else if text = "SELECT 'c' AS bench, n FROM c".toList then
      [["c".toList, "2".toList], ["c".toList, "3".toList]]
    else []

/-- An exception in the query for `c`, after the rows for `a` have been written; the next run asks
for `b` again and appends the rows for `c`. -/
theorem resume_after_interrupt :
    ∃ stopped final, Attempt rowsDb rowsSql ["a".toList, "b".toList, "c".toList].toFinset
        ⟨none, false⟩ stopped ∧
      stopped = ⟨some [["bench".toList, "n".toList], ["a".toList, "1".toList]], false⟩ ∧
      runQuery rowsDb (fun _ => false) rowsSql ["a".toList, "b".toList, "c".toList].toFinset
        stopped = (.ok (), final) ∧
      final.csv = some [["bench".toList, "n".toList], ["a".toList, "1".toList],
        ["c".toList, "2".toList], ["c".toList, "3".toList]] ∧
      runQuery rowsDb (fun _ => false) rowsSql ["a".toList, "b".toList, "c".toList].toFinset
        ⟨none, false⟩ = (.ok (), final) := by
  have hbenches : listBenches ["a".toList, "b".toList, "c".toList].toFinset =
      ["a".toList, "b".toList, "c".toList] :=
    (List.toFinset_sort (· ≤ ·) (by decide)).2 (by decide)
  have hcarries : CarriesBench rowsDb rowsSql ["a".toList, "b".toList, "c".toList].toFinset :=
    ⟨0, by decide +kernel⟩
  have hsql : hasBench rowsSql = true := by decide +kernel
  have habort : runQuery rowsDb (· = some "c".toList) rowsSql
      ["a".toList, "b".toList, "c".toList].toFinset ⟨none, false⟩ = (.error .interrupted,
        ⟨some [["bench".toList, "n".toList], ["a".toList, "1".toList]], false⟩) := by
    rw [runQuery_of_hasBench hsql _ rfl, hbenches]
    rfl
  have hfinal : runQuery rowsDb (fun _ => false) rowsSql
      ["a".toList, "b".toList, "c".toList].toFinset
      ⟨some [["bench".toList, "n".toList], ["a".toList, "1".toList]], false⟩ = (.ok (),
        ⟨some [["bench".toList, "n".toList], ["a".toList, "1".toList], ["c".toList, "2".toList],
          ["c".toList, "3".toList]], true⟩) := by
    rw [runQuery_of_hasBench hsql _ rfl, hbenches]
    rfl
  refine ⟨_, _, .aborted habort, rfl, hfinal, rfl, ?_⟩
  exact ((resume_exact rowsDb rowsSql _ hsql hcarries ⟨none, false⟩ _ rfl
    (.single (.aborted habort))).2 _ _ hfinal).1

end Memlog.Query.Harness
