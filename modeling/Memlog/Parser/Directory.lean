import Memlog.Lib.Fallible
import Memlog.Parser.Ledger
import Memlog.Parser.Plan

/-!
# The directory of a run

The objects that the parser makes have names of their own (`Tidy`), so a temporary file belongs to
one object and so does a `.stores` file. With that, no operation that the tables ask for fails as
long as a file may be opened (`FitsCache.execAll`), and what a run leaves is a function of the plan
and of the files that it found (`Plays.view_eq`), whatever number of files it may open.
-/

namespace Memlog

open Lib

/-! ## Names of files -/

/-- The name of a `.stores` file. -/
def IsStores (path : Path) : Prop := ".stores".toList <:+ path

namespace LiveAlloc

/-- The object is called by its start address. -/
def Named (a : LiveAlloc) : Prop :=
  ∃ hex size, '_' ∉ hex ∧ a.start = numeral 16 hexVal hex ∧
    a.baseCore = "0x".toList ++ hex ++ "_".toList ++ Nat.toDigits 10 size

variable {a b : LiveAlloc}

theorem Named.congr (ha : a.Named) (h : b.SameName a) : b.Named := by
  unfold Named
  rw [h.start, h.baseCore]
  exact ha

theorem Named.tmpPath_inj (ha : a.Named) (hb : b.Named) (h : a.tmpPath = b.tmpPath) :
    a.start = b.start ∧ a.usageNum = b.usageNum := by
  obtain ⟨hex, size, hhex, hstart, hcore⟩ := ha
  obtain ⟨hex', size', hhex', hstart', hcore'⟩ := hb
  rw [tmpPath, tmpPath, hcore, hcore'] at h
  simp only [String.reduceToList, List.append_assoc, List.cons_append, List.nil_append,
    List.cons.injEq, true_and] at h
  obtain ⟨hsame, h⟩ := append_cons_inj hhex hhex' h
  obtain ⟨-, h⟩ := append_cons_inj (Record.not_mem_toDigits_ten (by decide) _)
    (Record.not_mem_toDigits_ten (by decide) _) h
  obtain ⟨husage, -⟩ := append_cons_inj (Record.not_mem_toDigits_ten (by decide) _)
    (Record.not_mem_toDigits_ten (by decide) _) h
  exact ⟨by rw [hstart, hstart', hsame], Record.toDigits_ten_injective husage⟩

theorem Named.target_inj (ha : a.Named) (hb : b.Named) (h : a.target = b.target) :
    a.start = b.start ∧ a.usageNum = b.usageNum := by
  obtain ⟨hex, size, hhex, hstart, hcore⟩ := ha
  obtain ⟨hex', size', hhex', hstart', hcore'⟩ := hb
  rw [target, target, hcore, hcore'] at h
  simp only [String.reduceToList, List.append_assoc, List.cons_append, List.nil_append,
    List.cons.injEq, true_and] at h
  obtain ⟨hsame, h⟩ := append_cons_inj hhex hhex' h
  obtain ⟨-, h⟩ := append_cons_inj (Record.not_mem_toDigits_ten (by decide) _)
    (Record.not_mem_toDigits_ten (by decide) _) h
  obtain ⟨-, h⟩ := append_cons_inj (Record.underscore_not_mem_typeName _)
    (Record.underscore_not_mem_typeName _) h
  obtain ⟨husage, -⟩ := append_cons_inj (Record.not_mem_toDigits_ten (by decide) _)
    (Record.not_mem_toDigits_ten (by decide) _) h
  exact ⟨by rw [hstart, hstart', hsame], Record.toDigits_ten_injective husage⟩

theorem head_tmpPath (a : LiveAlloc) : a.tmpPath.head? = some '.' := by
  simp [tmpPath]

theorem Named.head_target (ha : a.Named) : a.target.head? = some '0' := by
  obtain ⟨hex, size, -, -, hcore⟩ := ha
  simp [target, hcore]

theorem isStores_target (a : LiveAlloc) : IsStores a.target := List.suffix_append ..

theorem not_isStores_tmpPath (a : LiveAlloc) : ¬IsStores a.tmpPath := by
  rintro ⟨front, hfront⟩
  have hlast : a.tmpPath.getLast? = some 'p' := by
    rw [tmpPath, List.getLast?_append]
    rfl
  rw [← hfront, List.getLast?_append] at hlast
  cases hlast

theorem tmpPath_ne_target (a b : LiveAlloc) : a.tmpPath ≠ b.target := by
  intro h
  exact a.not_isStores_tmpPath (h ▸ b.isStores_target)

end LiveAlloc

theorem Parser.named_headerAlloc (p : Parser) {startHex : List Char}
    (hstart : ∀ d ∈ startHex, isHexDigit d) (sizeStr : List Char) :
    (p.headerAlloc startHex sizeStr).Named := by
  refine ⟨startHex.map Char.toLower, numeral 10 decVal sizeStr, ?_, ?_, rfl⟩
  · intro hmem
    obtain ⟨d, hd, hlower⟩ := List.mem_map.1 hmem
    exact (hexVal_toLower (hstart d hd)).2 hlower
  · exact (numeral_map fun d hd => (hexVal_toLower (hstart d hd)).1).symm

/-! ## Objects and their names -/

namespace Parser

/-- The objects have names of their own. -/
structure Tidy (p : Parser) : Prop where
  nodup : p.liveList.Nodup
  lt_nextRef : ∀ r ∈ p.liveList, r < p.nextRef
  named : ∀ i < p.nextRef, (p.objects i).Named
  usageNum_le : ∀ i < p.nextRef, (p.objects i).usageNum ≤ p.addressUsageCount (p.objects i).start
  distinct : ∀ i < p.nextRef, ∀ j < p.nextRef, (p.objects i).start = (p.objects j).start →
    (p.objects i).usageNum = (p.objects j).usageNum → i = j

variable {p p' : Parser} {op : FileOp}

theorem tidy_init (maxOpenFiles : Nat) (files : Files) : (init maxOpenFiles files).Tidy where
  nodup := List.nodup_nil
  lt_nextRef _ hr := nomatch hr
  named _ hi := nomatch hi
  usageNum_le _ hi := nomatch hi
  distinct _ hi := nomatch hi

/-- A step that only changes what objects hold, and which of them are live. -/
theorem Tidy.congr (ht : p.Tidy) (hname : ∀ i < p.nextRef, (p'.objects i).SameName (p.objects i))
    (hnext : p'.nextRef = p.nextRef) (hlive : p'.liveList.Sublist p.liveList)
    (husage : p'.addressUsageCount = p.addressUsageCount) : p'.Tidy where
  nodup := ht.nodup.sublist hlive
  lt_nextRef r hr := by
    rw [hnext]
    exact ht.lt_nextRef r (hlive.subset hr)
  named i hi := by
    rw [hnext] at hi
    exact (ht.named i hi).congr (hname i hi)
  usageNum_le i hi := by
    rw [hnext] at hi
    rw [husage, (hname i hi).usageNum, (hname i hi).start]
    exact ht.usageNum_le i hi
  distinct i hi j hj hstart hnum := by
    rw [hnext] at hi hj
    rw [(hname i hi).start, (hname j hj).start] at hstart
    rw [(hname i hi).usageNum, (hname j hj).usageNum] at hnum
    exact ht.distinct i hi j hj hstart hnum

/-- A new object takes the next number of its start address. -/
theorem Tidy.create (ht : p.Tidy) {a : LiveAlloc} (ha : a.Named)
    (hnum : a.usageNum = p.addressUsageCount a.start + 1)
    (hobj : p'.objects = Function.update p.objects p.nextRef a) (hnext : p'.nextRef = p.nextRef + 1)
    (hlive : p'.liveList.Perm (p.nextRef :: p.liveList))
    (husage : p'.addressUsageCount = Function.update p.addressUsageCount a.start a.usageNum) :
    p'.Tidy := by
  have hself : p'.objects p.nextRef = a := by
    rw [hobj]
    exact Function.update_self ..
  have hold : ∀ i < p.nextRef, p'.objects i = p.objects i := by
    intro i hi
    rw [hobj]
    exact Function.update_of_ne hi.ne ..
  have hcases : ∀ i < p'.nextRef, i = p.nextRef ∨ i < p.nextRef := by
    intro i hi
    rw [hnext] at hi
    exact (Nat.lt_succ_iff_lt_or_eq.1 hi).symm
  have hfresh : p.nextRef ∉ p.liveList := fun h => Nat.lt_irrefl _ (ht.lt_nextRef _ h)
  -- an older object with the start address of the new one has a smaller number
  have hlt : ∀ i < p.nextRef, (p.objects i).start = a.start →
      (p.objects i).usageNum < a.usageNum := by
    intro i hi hstart
    have hle := ht.usageNum_le i hi
    rw [hstart] at hle
    omega
  refine ⟨?_, fun r hr => ?_, fun i hi => ?_, fun i hi => ?_, fun i hi j hj hstart husage' => ?_⟩
  · exact hlive.nodup_iff.2 (List.nodup_cons.2 ⟨hfresh, ht.nodup⟩)
  · rw [hnext]
    obtain rfl | hmem := List.mem_cons.1 (hlive.mem_iff.1 hr)
    · exact Nat.lt_succ_self _
    · exact (ht.lt_nextRef r hmem).trans (Nat.lt_succ_self _)
  · obtain rfl | hi := hcases i hi
    · rw [hself]
      exact ha
    · rw [hold i hi]
      exact ht.named i hi
  · obtain rfl | hi := hcases i hi
    · rw [hself, husage, Function.update_self]
    · rw [hold i hi, husage]
      by_cases hstart : (p.objects i).start = a.start
      · rw [hstart, Function.update_self]
        exact (hlt i hi hstart).le
      · rw [Function.update_of_ne hstart]
        exact ht.usageNum_le i hi
  · obtain rfl | hi := hcases i hi <;> obtain rfl | hj := hcases j hj
    · rfl
    · rw [hself, hold j hj] at hstart husage'
      exact absurd husage'.symm (hlt j hj hstart.symm).ne
    · rw [hself, hold i hi] at hstart husage'
      exact absurd husage' (hlt i hi hstart).ne
    · rw [hold i hi, hold j hj] at hstart husage'
      exact ht.distinct i hi j hj hstart husage'

theorem Tidy.moves (ht : p.Tidy) (hm : p.Moves op p') : p'.Tidy := by
  cases hm with
  | quiet hobj hnext hlive husage =>
    refine ht.congr (fun i _ => ?_) hnext (hlive ▸ List.Sublist.refl _) husage
    obtain ⟨lines, hi⟩ := hobj i
    rw [hi]
    exact ⟨rfl, rfl, rfl⟩
  | @write _ r a text hr ha hobj hnext hlive husage =>
    refine ht.congr (fun i _ => ?_) hnext (hlive ▸ List.Sublist.refl _) husage
    rw [hobj]
    by_cases hi : i = r
    · subst hi
      rw [Function.update_self]
      exact ha
    · rw [Function.update_of_ne hi]
      exact .refl _
  | create hstart hobj hnext hlive husage =>
    exact ht.create (p.named_headerAlloc hstart _) rfl hobj hnext hlive husage
  | finish hr hobj hnext hlive husage =>
    refine ht.congr (fun i _ => ?_) hnext (hlive ▸ List.erase_sublist) husage
    rw [hobj]
    exact .refl _

theorem Tidy.tmpPath_inj (ht : p.Tidy) {i j : Ref} (hi : i < p.nextRef) (hj : j < p.nextRef)
    (h : (p.objects i).tmpPath = (p.objects j).tmpPath) : i = j := by
  obtain ⟨hstart, hnum⟩ := (ht.named i hi).tmpPath_inj (ht.named j hj) h
  exact ht.distinct i hi j hj hstart hnum

theorem Tidy.target_inj (ht : p.Tidy) {i j : Ref} (hi : i < p.nextRef) (hj : j < p.nextRef)
    (h : (p.objects i).target = (p.objects j).target) : i = j := by
  obtain ⟨hstart, hnum⟩ := (ht.named i hi).target_inj (ht.named j hj) h
  exact ht.distinct i hi j hj hstart hnum

/-- The object is no longer live, and its temporary file has been renamed. -/
structure Done (p : Parser) (i : Ref) : Prop where
  lt_nextRef : i < p.nextRef
  not_live : i ∉ p.liveList
  stored : (p.objects i).storeCount ≠ 0

/-- A live object that has a store has a temporary file. -/
def Holds (p : Parser) (files : Files) : Prop :=
  ∀ r ∈ p.liveList, (p.objects r).storeCount ≠ 0 → ∃ text, files (p.objects r).tmpPath = some text

end Parser

/-! ## What the operations do to the directory -/

namespace LiveAlloc

variable {a : LiveAlloc} {files : Files} {q : Path}

theorem finalized_of_ne (htmp : q ≠ a.tmpPath) (htarget : a.storeCount ≠ 0 → q ≠ a.target) :
    a.finalized files q = files q := by
  unfold finalized
  split
  · exact Function.update_of_ne htmp ..
  · next hcount =>
    rw [Function.update_of_ne (htarget hcount), Function.update_of_ne htmp]

theorem finalized_target (hcount : a.storeCount ≠ 0) :
    a.finalized files a.target = files a.tmpPath := by
  rw [finalized, if_neg hcount, Function.update_self]

end LiveAlloc

theorem Files.write_self (files : Files) (path : Path) (text : List Char) :
    files.write path text path = some ((files path).getD [] ++ text) :=
  Function.update_self ..

theorem Files.write_of_ne (files : Files) {path q : Path} (text : List Char) (h : q ≠ path) :
    files.write path text q = files q :=
  Function.update_of_ne h ..

namespace FileOp

/-- What an operation does to the directory as it will be when the handles are closed. -/
def apply (files : Files) : FileOp → Files
  | skip => files
  | write path text => files.write path text
  | finalize a => a.finalized files

end FileOp

namespace Parser

variable {p p' : Parser} {op : FileOp} {files : Files}

/-- No step gives an object another temporary file. -/
theorem Moves.tmpPath_eq (hm : p.Moves op p') {i : Ref} (hi : i < p.nextRef) :
    (p'.objects i).tmpPath = (p.objects i).tmpPath := by
  cases hm with
  | quiet hobj hnext hlive husage =>
    obtain ⟨lines, hlines⟩ := hobj i
    rw [hlines]
    rfl
  | @write _ r a text hr ha hobj hnext hlive husage =>
    rw [hobj]
    by_cases hir : i = r
    · subst hir
      rw [Function.update_self]
      exact ha.tmpPath
    · rw [Function.update_of_ne hir]
  | create hstart hobj hnext hlive husage => rw [hobj, Function.update_of_ne hi.ne]
  | finish hr hobj hnext hlive husage => rw [hobj]

/-- No step changes an object that is not live. -/
theorem Moves.not_live (hm : p.Moves op p') {i : Ref} (hi : i < p.nextRef)
    (hlive : i ∉ p.liveList) :
    (p'.objects i).storeCount = (p.objects i).storeCount ∧
      (p'.objects i).target = (p.objects i).target ∧ i < p'.nextRef ∧ i ∉ p'.liveList := by
  cases hm with
  | quiet hobj hnext hlive' husage =>
    obtain ⟨lines, hlines⟩ := hobj i
    rw [hlines, hnext, hlive']
    exact ⟨rfl, rfl, hi, hlive⟩
  | @write _ r a text hr ha hobj hnext hlive' husage =>
    have hir : i ≠ r := fun h => hlive (h ▸ hr)
    rw [hobj, Function.update_of_ne hir, hnext, hlive']
    exact ⟨rfl, rfl, hi, hlive⟩
  | create hstart hobj hnext hlive' husage =>
    rw [hobj, Function.update_of_ne hi.ne, hnext, hlive'.mem_iff, List.mem_cons, not_or]
    exact ⟨rfl, rfl, hi.trans (Nat.lt_succ_self _), hi.ne, hlive⟩
  | finish hr hobj hnext hlive' husage =>
    rw [hobj, hnext, hlive']
    exact ⟨rfl, rfl, hi, fun h => hlive (List.mem_of_mem_erase h)⟩

theorem Done.moves {i : Ref} (h : p.Done i) (hm : p.Moves op p') :
    p'.Done i ∧ (p'.objects i).target = (p.objects i).target := by
  obtain ⟨hcount, htarget, hlt, hlive⟩ := hm.not_live h.lt_nextRef h.not_live
  exact ⟨⟨hlt, hlive, hcount ▸ h.stored⟩, htarget⟩

theorem Tidy.tmpPath_ne (ht : p.Tidy) {r r' : Ref} (hr : r ∈ p.liveList) (hr' : r' ∈ p.liveList)
    (hne : r' ≠ r) : (p.objects r').tmpPath ≠ (p.objects r).tmpPath := fun h =>
  hne (ht.tmpPath_inj (ht.lt_nextRef r' hr') (ht.lt_nextRef r hr) h)

theorem Holds.moves (ht : p.Tidy) (h : p.Holds files) (hm : p.Moves op p') :
    p'.Holds (op.apply files) := by
  intro r' hr' hcount
  cases hm with
  | quiet hobj hnext hlive husage =>
    obtain ⟨lines, hlines⟩ := hobj r'
    rw [hlive] at hr'
    rw [hlines] at hcount ⊢
    exact h r' hr' hcount
  | @write _ r a text hr ha hobj hnext hlive husage =>
    rw [hlive] at hr'
    by_cases hrr : r' = r
    · subst hrr
      rw [hobj, Function.update_self, ha.tmpPath]
      exact ⟨_, Files.write_self ..⟩
    · rw [hobj, Function.update_of_ne hrr] at hcount ⊢
      obtain ⟨text', htext'⟩ := h r' hr' hcount
      exact ⟨text', (Files.write_of_ne files text (ht.tmpPath_ne hr hr' hrr)).trans htext'⟩
  | create hstart hobj hnext hlive husage =>
    obtain rfl | hmem := List.mem_cons.1 (hlive.mem_iff.1 hr')
    · rw [hobj, Function.update_self] at hcount
      exact absurd rfl hcount
    · rw [hobj, Function.update_of_ne (ht.lt_nextRef r' hmem).ne] at hcount ⊢
      exact h r' hmem hcount
  | @finish _ r hr hobj hnext hlive husage =>
    rw [hlive, ht.nodup.mem_erase_iff] at hr'
    rw [hobj] at hcount ⊢
    obtain ⟨text, htext⟩ := h r' hr'.2 hcount
    refine ⟨text, Eq.trans ?_ htext⟩
    exact LiveAlloc.finalized_of_ne (ht.tmpPath_ne hr hr'.2 hr'.1) fun _ =>
      LiveAlloc.tmpPath_ne_target _ _

/-- The tables and a cache that has a handle to spare belong together. -/
structure FitsCache (p : Parser) (c : FileCache) : Prop where
  ok : c.Ok
  not_stores : ∀ q ∈ c.handles, ¬IsStores q
  holds : p.Holds c.view

/-- **No operation fails** that the tables ask for. -/
theorem FitsCache.exec {c : FileCache} (ht : p.Tidy) (h : p.FitsCache c) (hm : p.Moves op p') :
    ∃ c', op.exec c = .ok c' ∧ p'.FitsCache c' ∧ c'.view = op.apply c.view := by
  have hholds := h.holds.moves ht hm
  have hresult : (∃ c', op.exec c = .ok c' ∧ c'.Ok ∧ c'.view = op.apply c.view ∧
      ∀ q ∈ c'.handles, ¬IsStores q) → ∃ c', op.exec c = .ok c' ∧ p'.FitsCache c' ∧
        c'.view = op.apply c.view := by
    rintro ⟨c', hexec, hok, hview, hstores⟩
    exact ⟨c', hexec, ⟨hok, hstores, hview ▸ hholds⟩, hview⟩
  apply hresult
  cases hm with
  | quiet => exact ⟨c, rfl, h.ok, rfl, h.not_stores⟩
  | create => exact ⟨c, rfl, h.ok, rfl, h.not_stores⟩
  | @write _ r a text =>
    obtain ⟨c', hwrite, hok, hview, hmem⟩ :=
      FileCache.writeLine_spec h.ok (p.objects r).tmpPath text
    refine ⟨c', hwrite, hok, hview, fun q hq => ?_⟩
    obtain rfl | hq := hmem q hq
    · exact LiveAlloc.not_isStores_tmpPath _
    · exact h.not_stores q hq
  | @finish _ r hr =>
    have htarget : (p.objects r).target ∉ c.handles := fun hmem =>
      h.not_stores _ hmem (LiveAlloc.isStores_target _)
    obtain ⟨c', hfinalize, hok, hview, hmem⟩ := closeAndFinalize_spec h.ok htarget (h.holds r hr)
    exact ⟨c', hfinalize, hok, hview, fun q hq => h.not_stores q (hmem q hq)⟩

/-! ## Runs -/

variable {ops : List FileOp} {c : FileCache}

/-- The tables at the start of a run. -/
def start : Parser := init 0 fun _ => none

theorem Tidy.plays (ht : p.Tidy) (hp : p.Plays ops p') : p'.Tidy := by
  induction hp with
  | refl p => exact ht
  | step hm hp ih => exact ih (ht.moves hm)

theorem Done.plays {i : Ref} (h : p.Done i) (hp : p.Plays ops p') :
    p'.Done i ∧ (p'.objects i).target = (p.objects i).target := by
  induction hp with
  | refl p => exact ⟨h, rfl⟩
  | step hm hp ih =>
    obtain ⟨h₁, htarget₁⟩ := h.moves hm
    obtain ⟨h₂, htarget₂⟩ := ih h₁
    exact ⟨h₂, htarget₂.trans htarget₁⟩

theorem FitsCache.execAll (ht : p.Tidy) (h : p.FitsCache c)
    (hp : p.Plays ops p') : ∃ c', FileOp.execAll ops c = .ok c' ∧ p'.FitsCache c' ∧
      c'.view = ops.foldl FileOp.apply c.view := by
  induction hp generalizing c with
  | refl p => exact ⟨c, rfl, h, rfl⟩
  | @step p p₁ p₂ op ops hm hp ih =>
    obtain ⟨c₁, hexec, h₁, hview₁⟩ := h.exec ht hm
    obtain ⟨c₂, hrest, h₂, hview₂⟩ := ih (ht.moves hm) h₁
    refine ⟨c₂, ?_, h₂, ?_⟩
    · rw [FileOp.execAll, List.foldlM_cons, hexec]
      exact hrest
    · rw [hview₂, hview₁]
      rfl

theorem fitsCache_start {maxOpen : Nat} (hopen : 1 ≤ maxOpen) (files : Files) :
    start.FitsCache (.init maxOpen files) where
  ok := FileCache.ok_init hopen files
  not_stores q hq := absurd hq (AList.notMem_empty q)
  holds _ hr := nomatch hr

end Parser

/-! ## Runs that may open no file -/

namespace FileOp

/-- The operation writes nothing. -/
def Still : FileOp → Prop
  | write _ _ => False
  | _ => True

variable {c c' : FileCache} {op : FileOp} {ops : List FileOp}

theorem close_of_no_handles (hempty : c.handles = ∅) (path : Path) : c.close path = c := by
  unfold FileCache.close
  rw [hempty, AList.lookup_empty]

theorem still_of_exec (hmax : c.maxOpen = 0) (hempty : c.handles = ∅) (h : op.exec c = .ok c') :
    op.Still ∧ c'.maxOpen = 0 ∧ c'.handles = ∅ := by
  cases op with
  | skip =>
    cases h
    exact ⟨trivial, hmax, hempty⟩
  | write path text =>
    have hnot : path ∉ c.handles := by
      rw [hempty]
      exact AList.notMem_empty path
    have hevict : FileCache.evictIfNeeded { c with tick := c.tick + 1 } =
        .error .emptySequence := by
      simp [FileCache.evictIfNeeded, hmax, hempty]
    simp only [exec, FileCache.writeLine, if_neg hnot, hevict] at h
    cases h
  | finalize a =>
    simp only [exec, LiveAlloc.closeAndFinalize, FileCache.closePath,
      close_of_no_handles hempty] at h
    split at h
    · cases h
      exact ⟨trivial, hmax, hempty⟩
    · split at h
      · cases h
        exact ⟨trivial, hmax, hempty⟩
      · cases h

theorem still_of_execAll (hmax : c.maxOpen = 0) (hempty : c.handles = ∅)
    (h : execAll ops c = .ok c') : (∀ op ∈ ops, op.Still) ∧ c'.handles = ∅ := by
  induction ops generalizing c with
  | nil =>
    cases h
    exact ⟨fun _ hop => absurd hop List.not_mem_nil, hempty⟩
  | cons op ops ih =>
    obtain ⟨c₁, hexec, hrest⟩ := bind_eq_ok h
    obtain ⟨hop, hmax₁, hempty₁⟩ := still_of_exec hmax hempty hexec
    obtain ⟨hops, hempty'⟩ := ih hmax₁ hempty₁ hrest
    exact ⟨List.forall_mem_cons.2 ⟨hop, hops⟩, hempty'⟩

/-- An operation that writes nothing does not look at the bound. -/
theorem exec_maxOpen (hop : op.Still) (k : Nat) :
    op.exec { c with maxOpen := k } = (op.exec c).map fun c => { c with maxOpen := k } := by
  cases op with
  | skip => rfl
  | write => exact hop.elim
  | finalize a =>
    have hclose : FileCache.close { c with maxOpen := k } a.tmpPath =
        { c.close a.tmpPath with maxOpen := k } := by
      unfold FileCache.close
      dsimp only
      cases c.handles.lookup a.tmpPath <;> rfl
    simp only [exec, LiveAlloc.closeAndFinalize, FileCache.closePath, hclose]
    split
    · rfl
    · cases (c.close a.tmpPath).files a.tmpPath <;> rfl

theorem execAll_maxOpen (hops : ∀ op ∈ ops, op.Still) (k : Nat) :
    execAll ops { c with maxOpen := k } = (execAll ops c).map fun c => { c with maxOpen := k } := by
  induction ops generalizing c with
  | nil => rfl
  | cons op ops ih =>
    obtain ⟨hop, hops⟩ := List.forall_mem_cons.1 hops
    rw [execAll, execAll, List.foldlM_cons, List.foldlM_cons, exec_maxOpen hop]
    cases op.exec c with
    | error e => rfl
    | ok c₁ => exact ih hops

end FileOp

/-! ## What a run leaves -/

namespace Parser

variable {ops : List FileOp} {p : Parser} {maxOpen : Nat} {files : Files} {c : FileCache}

/-- What a run leaves, whatever number of files it may open. -/
theorem Plays.view_eq (hp : start.Plays ops p)
    (h : FileOp.execAll ops (.init maxOpen files) = .ok c) :
    c.view = ops.foldl FileOp.apply files ∧ c.closeAll.files = c.view := by
  have hpos : ∀ {m : Nat} {c : FileCache}, 1 ≤ m → FileOp.execAll ops (.init m files) = .ok c →
      c.view = ops.foldl FileOp.apply files ∧ c.Ok := by
    intro m c hm hc
    obtain ⟨c', hexec, htracks, hview⟩ := (fitsCache_start hm files).execAll (tidy_init ..) hp
    cases hexec.symm.trans hc
    rw [FileCache.view_init] at hview
    exact ⟨hview, htracks.ok⟩
  by_cases hopen : 1 ≤ maxOpen
  · obtain ⟨hview, hok⟩ := hpos hopen h
    exact ⟨hview, FileCache.closeAll_files hok⟩
  · have hzero : maxOpen = 0 := by omega
    subst hzero
    obtain ⟨hstill, hempty⟩ := FileOp.still_of_execAll rfl rfl h
    have hone := FileOp.execAll_maxOpen (c := .init 0 files) hstill 1
    rw [h] at hone
    obtain ⟨hview, -⟩ := hpos le_rfl hone
    have hnot : ∀ q, q ∉ c.handles := by
      intro q
      rw [hempty]
      exact AList.notMem_empty q
    refine ⟨hview, ?_⟩
    funext q
    rw [FileCache.view_of_not_mem (hnot q), FileCache.closeAll, hempty]
    rfl

/-- Whether a run is completed does not depend on the files. -/
theorem Plays.exists_execAll (hp : start.Plays ops p)
    (h : FileOp.execAll ops (.init maxOpen files) = .ok c) (files' : Files) :
    ∃ c', FileOp.execAll ops (.init maxOpen files') = .ok c' := by
  by_cases hopen : 1 ≤ maxOpen
  · obtain ⟨c', hexec, -⟩ := (fitsCache_start hopen files').execAll (tidy_init ..) hp
    exact ⟨c', hexec⟩
  · have hzero : maxOpen = 0 := by omega
    subst hzero
    obtain ⟨hstill, -⟩ := FileOp.still_of_execAll rfl rfl h
    obtain ⟨c', hexec, -⟩ := (fitsCache_start le_rfl files').execAll (tidy_init ..) hp
    have hdown := FileOp.execAll_maxOpen (c := .init 1 files') hstill 0
    rw [hexec] at hdown
    exact ⟨_, hdown⟩

end Parser

end Memlog
