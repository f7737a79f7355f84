import EvmObject.Container
import EvmObject.Machine.Context
import EvmObject.Machine.Host
/-!
One step of the machine: the instruction at the present place is read, its stack needs are checked,
it is paid for, and it is carried out. The place moves only when the instruction is done, so a halt
tells where the fault is.
-/
namespace EvmObject

variable {σ : Type}

/-- What one step comes to, with the state of the run and of the host after it. -/
inductive Step (σ : Type) where
  | next (ctx : Context) (s : σ)
  | exit (how : Exit) (ctx : Context) (s : σ)
  | halt (reason : Halt) (ctx : Context) (s : σ)

namespace Instruction

def exit? : Instruction → Option Exit
  | finish how => some how
  | delegated op => if op.info.terminating then some .success else none
  | _ => none

end Instruction

namespace Machine

/-- The next offset after an instruction that ends at `next`: by a jump if it takes one. A jump has
to stay inside the code. -/
def land (code : Array UInt8) (next : Nat) (jump : Option Int16) : Except Halt Nat :=
  match jump with
  | none => .ok next
  | some offset =>
    match relativeTarget next offset with
    | some target => if target < code.size then .ok target else .error .invalidJump
    | none => .error .invalidJump

def goTo (code : Array UInt8) (next : Nat) (jump : Option Int16) (ctx : Context) (s : σ) : Step σ :=
  match land code next jump with
  | .ok pc => .next { ctx with pc } s
  | .error h => .halt h ctx s

def select (code : Array UInt8) (next : Nat) (jump : Word → Option Int16) (ctx : Context) (s : σ) :
    Step σ :=
  match ctx.stack.pop ctx.floor with
  | .ok (w, stack) => goTo code next (jump w) { ctx with stack } s
  | .error h => .halt h ctx s

def leave (instr : Instruction) (next : Nat) (ctx : Context) (s : σ) : Step σ :=
  match instr.exit? with
  | some how => .exit how ctx s
  | none => .next { ctx with pc := next } s

def delegate (host : Host σ) (instr : Instruction) (info : OpcodeInfo) (next : Nat) (ctx : Context)
    (s : σ) : Step σ :=
  match ctx.stack.popMany ctx.floor info.inputs with
  | .error h => .halt h ctx s
  | .ok (inputs, stack) =>
    match host.external info.byte inputs s with
    | (.error h, s) => .halt h { ctx with stack } s
    | (.ok results, s) =>
      if results.length = info.outputs then
        match stack.pushAll results with
        | .error (h, stack) => .halt h { ctx with stack } s
        | .ok stack => leave instr next { ctx with stack } s
      else .halt (.hostOutputMismatch info.byte info.outputs results.length) { ctx with stack } s

/-- Whether the data stack and the return stack have room for a call of a section of this type. The
headroom check stops at zero when the section declares more than the limit. -/
def callable (ctx : Context) (callee : CodeType) : Except Halt Unit :=
  match ctx.stack.require ctx.floor callee.inputs.toNat with
  | .error h => .error h
  | .ok () =>
    if ctx.stack.limit - callee.maxStackHeight.toNat < ctx.stack.height then
      .error (.callStackLimit ctx.stack.height callee.maxStackHeight)
    else if ctx.returns.isFull then .error (.returnStackOverflow ctx.returns.limit)
    else .ok ()

def returnable (ctx : Context) (running : CodeType) : Except Halt Unit :=
  if ctx.stack.height = ctx.floor + running.outputs.toNat then .ok ()
  else .error (.outputMismatch (ctx.floor + running.outputs.toNat) ctx.stack.height)

/-- All that is checked before an instruction is paid for, `running` being the type of the section
that it stands in. -/
def ready (c : Container) (running : CodeType) (instr : Instruction) (info : OpcodeInfo)
    (ctx : Context) : Except Halt Unit :=
  match ctx.stack.accommodates ctx.floor info.inputs info.outputs with
  | .error h => .error h
  | .ok () =>
    match instr with
    | .callf target =>
      match c.sections[target.toNat]? with
      | none => .error (.callTargetOutOfRange target.toNat)
      | some callee => callable ctx callee.type
    | .retf => returnable ctx running
    | _ => .ok ()

/-- Starts the section at `target`, which may reach its inputs and nothing below them. -/
def call (c : Container) (target next : Nat) (ctx : Context) (s : σ) : Step σ :=
  match c.sections[target]? with
  | none => .halt (.callTargetOutOfRange target) ctx s
  | some callee =>
    match ctx.returns.push ⟨ctx.index, next, ctx.stack.height - callee.type.inputs.toNat⟩ with
    | .error h => .halt h ctx s
    | .ok returns => .next { ctx with index := target, pc := 0, returns } s

/-- Goes back to the caller; the run is over if there is none but the sentinel. -/
def comeBack (running : CodeType) (ctx : Context) (s : σ) : Step σ :=
  match ctx.returns.pop? with
  | none => .halt (.outputMismatch (ctx.floor + running.outputs.toNat) ctx.stack.height) ctx s
  | some (frame, returns) =>
    if returns.isEmpty then .exit .success { ctx with returns } s
    else .next { ctx with index := frame.index, pc := frame.offset, returns } s

/-- Carries out an instruction that is checked and paid for; `next` is the offset after it. -/
def perform (host : Host σ) (c : Container) (running : CodeSection) (instr : Instruction)
    (info : OpcodeInfo) (next : Nat) (ctx : Context) (s : σ) : Step σ :=
  match instr with
  | .stack op =>
    match op.apply ctx.floor ctx.stack with
    | .ok stack => .next { ctx with pc := next, stack } s
    | .error (h, stack) => .halt h { ctx with stack } s
  | .rjump offset => goTo running.code next (some offset) ctx s
  | .rjumpi offset =>
    select running.code next (fun w => if w = 0 then none else some offset) ctx s
  | .rjumpv table => select running.code next (fun w => table.offsets[w.toNat]?) ctx s
  | .callf target => call c target.toNat next ctx s
  | .retf => comeBack running.type ctx s
  | .stop => .exit .success ctx s
  | .invalid => .halt .invalidInstruction ctx s
  | .finish _ | .delegated _ => delegate host instr info next ctx s

def execute (host : Host σ) (c : Container) (running : CodeSection) (instr : Instruction)
    (ctx : Context) (s : σ) : Step σ :=
  let info := instr.info
  match ready c running.type instr info ctx with
  | .error h => .halt h ctx s
  | .ok () =>
    match host.charge info.gas s with
    | (.error h, s) => .halt h ctx s
    | (.ok (), s) => perform host c running instr info (ctx.pc + instr.length) ctx s

/-- One step. Past the end of a section the run is over, as at a stop. -/
def step (host : Host σ) (c : Container) (ctx : Context) (s : σ) : Step σ :=
  match c.sections[ctx.index]? with
  | none => .halt (.callTargetOutOfRange ctx.index) ctx s
  | some running =>
    if ctx.pc < running.code.size then
      match Instruction.decode running.code ctx.pc with
      | .error e => .halt (.ofDecodeError e) ctx s
      | .ok instr => execute host c running instr ctx s
    else .exit .success ctx s

end Machine
end EvmObject
