import Memlog.Tool.Reply
import Memlog.Wire.MxSimulates
import Memlog.Wire.Simulates

/-!
# Programs under the tool

The core runs the client program superblock by superblock, whatever the thread, and calls into the
tool for the heap functions and client requests of the program. It is an arbitrary function here
(`Core`): what it does next depends on a state of its own and on what it sees of the client.

* `Traced.step` runs the superblocks that `ml_instrument` makes, with the helpers of the tool.
* `Client.step` is what the client is to see: it runs the superblocks as they are. When values are
  to be rounded, every store is followed by the encoding of what it wrote. On the side it keeps the
  actions that the tool is to record.
-/

namespace Memlog.Program

open Lib Vex Wire

/-! ## The core -/

/-- A superblock that VEX hands to `ml_instrument`: its temporaries are declared, and it calls no
helper of the tool. -/
structure Superblock (fn : Helpers) where
  bb : IRSB
  declared : bb.declared
  noHelper : ∀ d, some (.dirty d) ∈ bb.stmts →
    d.cee ≠ logStoreCallee fn ∧ d.cee ≠ mxAfterStoreCallee fn

/-- The calls that the core makes; the others are made by superblocks. -/
def isCallback : Op → Bool
  | .logStore _ _ | .mxAfterStore _ _ | .write _ _ _ => false
  | _ => true

structure Callback extends Call where
  isCallback : isCallback op

/-- What the core sees of the client: the guest state of the thread that runs, the memory, the
blocks of its own allocator, how the last superblock ended and what the last callback returned. -/
structure View where
  guest : ByteMem 64
  mem : Mem
  heap : List CliBlock
  target : Nat
  jumpkind : Nat
  reply : Reply

/-- What the core does: run a superblock, whose temporaries may hold anything, call into the tool,
or change the client's registers and memory (a system call, another thread, the result of a call).
-/
inductive CoreStep (fn : Helpers) where
  | block (sb : Superblock fn) (temps : IRTemp → Nat)
  | call (c : Callback)
  | other (guest : ByteMem 64) (mem : Mem)

/-- The core, with the machine that runs superblocks. -/
structure Core (σ : Type) (fn : Helpers) where
  machine : Machine
  seesNoTemps : machine.SeesNoTemps
  next : σ → View → σ × CoreStep fn

/-! ## The client under the tool -/

/-- The helpers of the tool when a superblock runs. `mx_after_store` changes the memory; it always
goes through (`mxAfterStore_eq_encodedMem`). `log_store` changes the tool's log only. -/
def helperDirty (fn : Helpers) (su : Setup) (t : Tool) (M : Machine) (cee : IRCallee)
    (args : List Nat) (s : GState) : Nat × ByteMem 64 × Mem :=
  if cee = logStoreCallee fn then (0, s.guest, s.mem)
  else if cee = mxAfterStoreCallee fn then
    match args with
    | [a, size] =>
      let after :=
        mxAfterStore su (BitVec.ofNat 64 a) (BitVec.ofNat 64 size) { t with mem := s.mem }
      (0, s.guest, (after.map fun res => res.2.mem).getD s.mem)
    | _ => (0, s.guest, s.mem)
  else M.dirty cee args s

/-- The machine of the core with the helpers of the tool. -/
def toolMachine (fn : Helpers) (su : Setup) (t : Tool) (M : Machine) : Machine :=
  M.withDirty (helperDirty fn su t M)

/-- The core, the tool and the client. -/
structure Traced (σ : Type) where
  core : σ
  tool : Tool
  guest : ByteMem 64
  target : Nat
  jumpkind : Nat
  reply : Reply

namespace Traced

variable {σ : Type}

def view (tr : Traced σ) : View where
  guest := tr.guest
  mem := tr.tool.mem
  heap := tr.tool.heap
  target := tr.target
  jumpkind := tr.jumpkind
  reply := tr.reply

/-- The start of a program. -/
def init (core : σ) (guest : ByteMem 64) (mem : Mem) (entry : Nat) : Traced σ where
  core := core
  tool := .init mem
  guest := guest
  target := entry
  jumpkind := 0
  reply := .none

/-- A step of the core. The calls of `log_store` that a superblock makes are made in order. -/
def exec {fn : Helpers} (su : Setup) (M : Machine) (tr : Traced σ) :
    CoreStep fn → Option (Traced σ)
  | .block sb temps =>
    let o := runIRSB (toolMachine fn su tr.tool M) (mlInstrument fn M.prim su.clo sb.bb)
      ⟨temps, tr.guest, tr.tool.mem⟩
    (logStores su (logCalls fn o.events) { tr.tool with mem := o.state.mem }).map fun res =>
      { tr with
        tool := res.2
        guest := o.state.guest
        target := o.target
        jumpkind := o.jumpkind }
  | .call c =>
    (c.op.call su c.who c.place tr.tool).map fun res => { tr with tool := res.2, reply := res.1 }
  | .other guest mem => some { tr with guest := guest, tool := { tr.tool with mem := mem } }

def step {fn : Helpers} (su : Setup) (core : Core σ fn) (tr : Traced σ) : Option (Traced σ) :=
  let next := core.next tr.core tr.view
  exec su core.machine { tr with core := next.1 } next.2

/-- A number of steps. -/
def run {fn : Helpers} (su : Setup) (core : Core σ fn) : Nat → Traced σ → Option (Traced σ)
  | 0, tr => some tr
  | n + 1, tr => (step su core tr).bind (run su core n)

end Traced

/-! ## The client -/

/-- The core and the client, with the actions that the tool is to record. -/
structure Client (σ : Type) where
  core : σ
  view : View
  acts : List Action

namespace Client

variable {σ : Type}

def init (core : σ) (guest : ByteMem 64) (mem : Mem) (entry : Nat) : Client σ where
  core := core
  view := ⟨guest, mem, [], entry, 0, .none⟩
  acts := []

/-- The tracked blocks. -/
def blocks (cl : Client σ) : List Block := (Registry.init.run cl.acts).blocks

/-- A superblock, as the client is to see it. -/
def runBlock (su : Setup) (M : Machine) (bs : List Block) (bb : IRSB) (s : GState) : Outcome :=
  if su.clo.mxRound then
    runHooked M (fun a size => encodedMem bs su.clo a (BitVec.ofNat 64 size)) bb s
  else runIRSB M bb s

/-- What is to be recorded of a superblock: the chunks of the stores that are executed. -/
def blockActions (su : Setup) (M : Machine) (bb : IRSB) (s : GState) : List Action :=
  if su.clo.mxRound then []
  else
    (executed M bb.tyenv (chunksOf M bb.tyenv) bb.stmts.reduceOption s).map fun p =>
      .store p.1 p.2

def exec {fn : Helpers} (su : Setup) (M : Machine) (cl : Client σ) : CoreStep fn → Client σ
  | .block sb temps =>
    let s : GState := ⟨temps, cl.view.guest, cl.view.mem⟩
    let o := runBlock su M cl.blocks sb.bb s
    { cl with
      view :=
        { cl.view with
          guest := o.state.guest
          mem := o.state.mem
          target := o.target
          jumpkind := o.jumpkind }
      acts := cl.acts ++ blockActions su M sb.bb s }
  | .call c =>
    { cl with
      view :=
        { cl.view with
          mem := c.op.memAfter su c.place cl.blocks cl.view.heap cl.view.mem
          heap := c.op.heapAfter su c.place cl.view.heap
          reply := c.op.reply su c.place cl.blocks cl.view.heap }
      acts := cl.acts ++ c.op.actions su c.who c.place cl.view.heap }
  | .other guest mem => { cl with view := { cl.view with guest := guest, mem := mem } }

def step {fn : Helpers} (su : Setup) (core : Core σ fn) (cl : Client σ) : Client σ :=
  let next := core.next cl.core cl.view
  exec su core.machine { cl with core := next.1 } next.2

def run {fn : Helpers} (su : Setup) (core : Core σ fn) : Nat → Client σ → Client σ
  | 0, cl => cl
  | n + 1, cl => run su core n (step su core cl)

end Client

end Memlog.Program
