import Memlog.Mx.Run
import Memlog.Tool.Realloc

/-!
# What a callback returns and does to the memory

`Op.exec` drops the result of a callback. `Op.call` keeps it, as the traced program gets it, and
`call_refines` gives the result and the memory after the call in terms of the tracked blocks and the
core's heap: for the registry, a callback is a function.
-/

namespace Memlog

open Lib

/-! ## Results -/

/-- The result of a callback: a pointer, a size, or whether a client request was for the tool. -/
inductive Reply where
  | ptr (p : Option Addr)
  | size (szB : SizeT)
  | handled (ok : Bool)
  | none

/-- A callback with its result. -/
def Op.call (su : Setup) (who : Caller) (place : Place) : Op → ToolM Reply
  | malloc szB => .ptr <$> mlMalloc su who place szB
  | builtinNew szB => .ptr <$> mlBuiltinNew su who place szB
  | builtinNewAligned szB alignB => .ptr <$> mlBuiltinNewAligned su who place szB alignB
  | builtinVecNew szB => .ptr <$> mlBuiltinVecNew su who place szB
  | builtinVecNewAligned szB alignB => .ptr <$> mlBuiltinVecNewAligned su who place szB alignB
  | memalign alignB szB => .ptr <$> mlMemalign su who place alignB szB
  | calloc nmemb size1 => .ptr <$> mlCalloc su who place nmemb size1
  | free p => (fun _ => .none) <$> mlFree su who p
  | builtinDelete p => (fun _ => .none) <$> mlBuiltinDelete su who p
  | builtinDeleteAligned p => (fun _ => .none) <$> mlBuiltinDeleteAligned su who p
  | builtinVecDelete p => (fun _ => .none) <$> mlBuiltinVecDelete su who p
  | builtinVecDeleteAligned p => (fun _ => .none) <$> mlBuiltinVecDeleteAligned su who p
  | realloc pOld newSzB => .ptr <$> mlRealloc su who place pOld newSzB
  | mallocUsableSize p => .size <$> mlMallocUsableSize p
  | request req => .handled <$> mlHandleClientRequest su who req
  | logStore addr value => (fun _ => .none) <$> Memlog.logStore su addr value
  | mxAfterStore addr size => (fun _ => .none) <$> Memlog.mxAfterStore su addr size
  | write addr size value => (fun _ => .none) <$> Memlog.write addr size value

section Spec

variable (su : Setup) (place : Place) (blocks : List Block) (heap : List CliBlock)

/-- The core's answer to `VG_(cli_malloc_usable_size)`. -/
def coreUsableSize (p : Addr) : SizeT :=
  ((heap.find? fun b => b.start = p).map CliBlock.usable).getD 0

/-- The size that `ml_realloc` takes the old block to have. -/
def oldSize (p : Addr) : SizeT :=
  match lookupBlock p blocks with
  | some bk => bk.reqSzB
  | none => coreUsableSize heap p

/-- The size that `ml_malloc_usable_size` answers. -/
def usableSize (p : Addr) : SizeT :=
  match lookupBlock p blocks with
  | some bk => if bk.payload = p then bk.reqSzB else coreUsableSize heap p
  | none => coreUsableSize heap p

/-- The block that `ml_realloc` returns, if it returns one. -/
def reallocated (pOld : Addr) (newSzB : SizeT) : Option CliBlock :=
  if pOld = 0 then allocated heap place newSzB mlMallocAlignment
  else if newSzB = 0 ∧ su.clo.reallocZeroBytesFrees then none
  else allocated heap place (reallocSize newSzB) mlMallocAlignment

/-- The memory after `mx_after_store`. -/
def encodedMem (clo : Clo) (addr : Addr) (size : HWord) (m : Mem) : Mem :=
  match lookupBlock addr blocks with
  | some bk => if bk.mx then mxReencode clo bk addr size m else m
  | none => m

/-- The memory after `ml_realloc`. -/
def reallocMem (pOld : Addr) (newSzB : SizeT) (m : Mem) : Mem :=
  match reallocated su place heap pOld newSzB with
  | some b =>
    if pOld = 0 then m
    else m.move b.start pOld (min (oldSize blocks heap pOld) (reallocSize newSzB)).toNat
  | none => m

namespace Op

/-- The result of a callback. -/
def reply : Op → Reply
  | malloc szB | builtinNew szB | builtinVecNew szB =>
    .ptr ((allocated heap place szB mlMallocAlignment).map CliBlock.start)
  | builtinNewAligned szB alignB | builtinVecNewAligned szB alignB | memalign alignB szB =>
    .ptr ((allocated heap place szB alignB).map CliBlock.start)
  | calloc nmemb size1 =>
    .ptr ((allocated heap place (nmemb * size1) mlMallocAlignment).map CliBlock.start)
  | realloc pOld newSzB => .ptr ((reallocated su place heap pOld newSzB).map CliBlock.start)
  | mallocUsableSize p => .size (usableSize blocks heap p)
  | request .other => .handled false
  | request _ => .handled true
  | free _ | builtinDelete _ | builtinDeleteAligned _ | builtinVecDelete _
  | builtinVecDeleteAligned _ | logStore _ _ | mxAfterStore _ _ | write _ _ _ => .none

/-- The memory after a callback. -/
def memAfter (m : Mem) : Op → Mem
  | calloc nmemb size1 => zeroed m true (allocated heap place (nmemb * size1) mlMallocAlignment)
  | realloc pOld newSzB => reallocMem su place blocks heap pOld newSzB m
  | mxAfterStore addr size => encodedMem blocks su.clo addr size m
  | write addr size value => m.storeLE addr size value
  | _ => m

end Op

end Spec

/-! ## Refinement -/

section Refines

variable {su : Setup} {t : Tool} {r : Registry}

theorem toolM_map {α β : Type} (f : α → β) (x : ToolM α) (t : Tool) :
    (f <$> x) t = (x t).map fun res => (f res.1, res.2) := by
  rw [map_eq_pure_bind, toolM_bind]
  cases x t <;> rfl

/-- A computation whose result is wrapped. -/
theorem map_reply {α : Type} {x : ToolM α} {a : α} {m : Mem}
    (h : ∃ t', x t = some (a, t') ∧ t'.mem = m) (f : α → Reply) :
    ∃ t', (f <$> x) t = some (f a, t') ∧ t'.mem = m := by
  obtain ⟨t', hrun, hmem⟩ := h
  refine ⟨t', ?_, hmem⟩
  rw [toolM_map, hrun, Option.map_some]

theorem mxAfterStore_eq_encodedMem (h : Refines su t r) (addr : Addr) (size : HWord) :
    mxAfterStore su addr size t =
      some ((), { t with mem := encodedMem r.blocks su.clo addr size t.mem }) := by
  unfold encodedMem
  cases hfound : lookupBlock addr r.blocks with
  | none => exact mxAfterStore_of_unmarked h fun b hb => by cases hfound.symm.trans hb
  | some bk =>
    cases hmx : bk.mx with
    | true =>
      simp only [hmx, if_true]
      exact mxAfterStore_of_finds (h.finds hfound) hmx
    | false =>
      simp only [hmx, Bool.false_eq_true, if_false]
      refine mxAfterStore_of_unmarked h fun b hb => ?_
      cases hfound.symm.trans hb
      exact hmx

theorem mlMallocUsableSize_eq (h : Refines su t r) (p : Addr) :
    mlMallocUsableSize p t = some (usableSize r.blocks t.heap p, t) := by
  unfold usableSize
  rw [mlMallocUsableSize, toolM_bind, h.find p, Option.bind_some]
  cases lookupBlock p r.blocks with
  | none => rfl
  | some bk =>
    by_cases hstart : bk.payload = p
    · simp only [if_pos hstart]
      rfl
    · simp only [if_neg hstart]
      rfl

/-- The result of `ml_realloc` and the memory after it. -/
theorem mlRealloc_reply (h : Refines su t r) (who : Caller) (place : Place) (pOld : Addr)
    (newSzB : SizeT) :
    ∃ t', mlRealloc su who place pOld newSzB t =
        some ((reallocated su place t.heap pOld newSzB).map CliBlock.start, t') ∧
      t'.mem = reallocMem su place r.blocks t.heap pOld newSzB t.mem := by
  unfold reallocMem reallocated
  by_cases hp : pOld = 0
  · obtain ⟨t', hrun, -, -, hmem⟩ := newBlock_refines h who place newSzB mlMallocAlignment false
    refine ⟨t', ?_, ?_⟩
    · rw [mlRealloc, if_pos hp, if_pos hp]
      exact hrun
    · simp only [if_pos hp]
      rw [hmem]
      cases allocated t.heap place newSzB mlMallocAlignment <;> rfl
  simp only [if_neg hp]
  by_cases hn : newSzB = 0 ∧ su.clo.reallocZeroBytesFrees
  · obtain ⟨t', hrun, -, -, hmem⟩ := dieBlock_refines h who pOld
    refine ⟨t', ?_, ?_⟩
    · rw [mlRealloc, if_neg hp, if_pos hn, if_pos hn, toolM_bind, mlFree, hrun]
      rfl
    · rw [if_pos hn]
      exact hmem
  rw [if_neg hn]
  cases hb : allocated t.heap place (reallocSize newSzB) mlMallocAlignment with
  | none => exact ⟨t, mlRealloc_none h hp hn hb, rfl⟩
  | some b =>
    obtain ⟨t', hrun, hmem⟩ : ∃ t', mlRealloc su who place pOld newSzB (t.withMem t.mem) =
        some (some b.start, t') ∧ t'.mem = _ := mlRealloc_mem h hp hn hb t.mem
    exact ⟨t', hrun, hmem⟩

/-- `Op.exec` is `Op.call` without the result. -/
theorem exec_eq_call (who : Caller) (place : Place) (op : Op) (t : Tool) :
    op.exec su who place t = (op.call su who place t).map fun res => ((), res.2) := by
  have hdrop : ∀ {α : Type} (x : ToolM α) (f : α → Reply),
      (do let _ ← x : ToolM Unit) t = ((f <$> x) t).map fun res => ((), res.2) := by
    intro α x f
    rw [toolM_map, toolM_bind, Option.map_map]
    cases x t <;> rfl
  have hunit : ∀ (x : ToolM Unit) (f : Unit → Reply),
      x t = ((f <$> x) t).map fun res => ((), res.2) := by
    intro x f
    rw [toolM_map, Option.map_map]
    cases x t <;> rfl
  cases op with
  | free p => exact hunit ..
  | builtinDelete p => exact hunit ..
  | builtinDeleteAligned p => exact hunit ..
  | builtinVecDelete p => exact hunit ..
  | builtinVecDeleteAligned p => exact hunit ..
  | logStore addr value => exact hunit ..
  | mxAfterStore addr size => exact hunit ..
  | write addr size value => exact hunit ..
  | _ => exact hdrop ..

/-- The result of a callback and the memory after it. -/
theorem call_reply (h : Refines su t r) (who : Caller) (place : Place) (op : Op) :
    ∃ t', op.call su who place t = some (op.reply su place r.blocks t.heap, t') ∧
      t'.mem = op.memAfter su place r.blocks t.heap t.mem := by
  have hnew : ∀ szB alignB isZeroed, ∃ t', newBlock su who place szB alignB isZeroed t =
      some ((allocated t.heap place szB alignB).map CliBlock.start, t') ∧
        t'.mem = zeroed t.mem isZeroed (allocated t.heap place szB alignB) := by
    intro szB alignB isZeroed
    obtain ⟨t', hrun, -, -, hmem⟩ := newBlock_refines h who place szB alignB isZeroed
    exact ⟨t', hrun, hmem⟩
  have hplain : ∀ szB alignB, ∃ t', newBlock su who place szB alignB false t =
      some ((allocated t.heap place szB alignB).map CliBlock.start, t') ∧ t'.mem = t.mem := by
    intro szB alignB
    obtain ⟨t', hrun, hmem⟩ := hnew szB alignB false
    refine ⟨t', hrun, hmem.trans ?_⟩
    cases allocated t.heap place szB alignB <;> rfl
  have hdie : ∀ p, ∃ t', dieBlock su who p t = some ((), t') ∧ t'.mem = t.mem := by
    intro p
    obtain ⟨t', hrun, -, -, hmem⟩ := dieBlock_refines h who p
    exact ⟨t', hrun, hmem⟩
  cases op with
  | malloc szB => exact map_reply (hplain ..) _
  | builtinNew szB => exact map_reply (hplain ..) _
  | builtinNewAligned szB alignB => exact map_reply (hplain ..) _
  | builtinVecNew szB => exact map_reply (hplain ..) _
  | builtinVecNewAligned szB alignB => exact map_reply (hplain ..) _
  | memalign alignB szB => exact map_reply (hplain ..) _
  | calloc nmemb size1 => exact map_reply (hnew ..) _
  | free p => exact map_reply (hdie p) fun _ => .none
  | builtinDelete p => exact map_reply (hdie p) fun _ => .none
  | builtinDeleteAligned p => exact map_reply (hdie p) fun _ => .none
  | builtinVecDelete p => exact map_reply (hdie p) fun _ => .none
  | builtinVecDeleteAligned p => exact map_reply (hdie p) fun _ => .none
  | realloc pOld newSzB => exact map_reply (mlRealloc_reply h who place pOld newSzB) _
  | mallocUsableSize p => exact map_reply ⟨t, mlMallocUsableSize_eq h p, rfl⟩ _
  | request req =>
    cases req with
    | trackBlock addr size =>
      refine map_reply (a := true) ?_ Reply.handled
      rw [mlHandleClientRequest]
      by_cases hsize : 0 < size
      · obtain ⟨t', hrun, -, hsame⟩ := trackBlock_refines h (clientBlock who addr size)
        refine ⟨t', ?_, hsame.mem⟩
        simp only [if_pos hsize]
        rw [toolM_bind, hrun]
        rfl
      · simp only [if_neg hsize]
        exact ⟨t, rfl, rfl⟩
    | untrackBlock addr =>
      refine map_reply (a := true) ?_ Reply.handled
      obtain ⟨t', hrun, -, hsame⟩ := untrackBlock_refines h who addr
      refine ⟨t', ?_, hsame.mem⟩
      rw [mlHandleClientRequest, toolM_bind, hrun]
      rfl
    | other => exact ⟨t, rfl, rfl⟩
  | logStore addr value =>
    obtain ⟨t', hrun, -, hsame⟩ := logStore_refines h addr value
    exact map_reply ⟨t', hrun, hsame.mem⟩ fun _ => .none
  | mxAfterStore addr size =>
    exact map_reply ⟨_, mxAfterStore_eq_encodedMem h addr size, rfl⟩ fun _ => .none
  | write addr size value => exact ⟨_, rfl, rfl⟩

/-- **A callback is a function of the registry and the core's heap**: it goes through and does its
actions, and heap, memory and result are as the specification says. -/
theorem call_refines (h : Refines su t r) (who : Caller) (place : Place) (op : Op) :
    ∃ t', op.call su who place t = some (op.reply su place r.blocks t.heap, t') ∧
      Refines su t' (r.run (op.actions su who place t.heap)) ∧
      t'.heap = op.heapAfter su place t.heap ∧
      t'.mem = op.memAfter su place r.blocks t.heap t.mem := by
  obtain ⟨t₁, hcall, hmem⟩ := call_reply h who place op
  obtain ⟨t', hexec, h', hheap⟩ := exec_refines h who place op
  rw [exec_eq_call, hcall] at hexec
  cases hexec
  exact ⟨t₁, hcall, h', hheap, hmem⟩

end Refines

end Memlog
