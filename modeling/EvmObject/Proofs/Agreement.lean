import EvmObject.Proofs.Listing
import EvmObject.Proofs.Soundness
/-!
The listing of a validated container shows what runs of it meet. Main statements: an instruction that is
decoded along a run stands on a line (`Context.OnTrack.listed`), the jumps it can take are shown there
(`Instruction.shows_of_target`), and all of this as it is read of the printed text (`listing_agrees`).
-/
namespace EvmObject

variable {σ : Type} {host : Host σ} {c : Container} {running : CodeSection} {instr : Instruction}
  {info : OpcodeInfo} {ctx ctx' : Context} {s t : σ} {index pc next : Nat}

/-- Among the words of a line are those for a jump by `offset`, with `target` as where it leads. -/
def Listing.Shows (words : List (List Char)) (offset : Int16) (target : Nat) : Prop :=
  ∃ digits, [Numeral.signed offset.toInt, ['-', '>'], '0' :: 'x' :: digits] <:+: words ∧
    Numeral.hex? digits = some target

namespace Instruction

def isJump : Instruction → Bool
  | rjump _ | rjumpi _ | rjumpv _ => true
  | _ => false

/-- The offset by which a jump is taken with these words on the stack, if it is. -/
def taken? (words : List Word) : Instruction → Option Int16
  | rjump offset => some offset
  | rjumpi offset => words.head?.bind fun w => if w = 0 then none else some offset
  | rjumpv table => words.head?.bind fun w => table.offsets[w.toNat]?
  | _ => none

theorem mem_offsets_of_taken? {words : List Word} {offset : Int16} (h : instr.taken? words = some offset) :
    offset ∈ instr.offsets := by
  cases instr with
  | rjump o =>
    cases h
    exact List.mem_singleton_self offset
  | rjumpi o =>
    obtain ⟨w, _, chosen⟩ := Option.bind_eq_some_iff.1 h
    exact mem_offsets_rjumpi chosen
  | rjumpv table =>
    obtain ⟨w, _, chosen⟩ := Option.bind_eq_some_iff.1 h
    exact mem_offsets_rjumpv chosen
  | _ => nomatch h

theorem jumpText_of_target {offset : Int16} {target : Nat} (found : relativeTarget next offset = some target) :
    jumpText next offset =
      ' ' :: Numeral.signed offset.toInt ++ " -> 0x".toList ++ Numeral.hex 4 target := by
  simp [jumpText, found]

theorem exists_operandText {offset : Int16} (member : offset ∈ instr.offsets) : ∃ before after,
    instr.operandText next = before ++ jumpText next offset ++ after ∧ Stops (· != ' ') after := by
  cases instr with
  | rjump o =>
    obtain rfl := List.mem_singleton.1 member
    exact ⟨[], [], (List.append_nil _).symm, stops_nil⟩
  | rjumpi o =>
    obtain rfl := List.mem_singleton.1 member
    exact ⟨[], [], (List.append_nil _).symm, stops_nil⟩
  | rjumpv table =>
    obtain ⟨front, rest, split⟩ := List.append_of_mem member
    refine ⟨' ' :: Numeral.decimal table.offsets.length ++ front.flatMap (jumpText next),
      rest.flatMap (jumpText next), ?_, ?_⟩
    · change table.offsets = front ++ offset :: rest at split
      simp [operandText, split]
    · cases rest with
      | nil => exact stops_nil
      | cons o rest => exact stops_cons rfl
  | _ => exact absurd member List.not_mem_nil

theorem head?_words_shown (index pc : Nat) (instr : Instruction) :
    (Listing.words (Line.instruction index pc instr).shown).head? = some instr.info.name.toList := by
  have name : ' ' ∉ instr.info.name.toList := instr.opcode.not_mem_name rfl
  have stops : Stops (· != ' ') (instr.operandText (pc + instr.length)) := instr.stops_operandText
  obtain ⟨operands, split⟩ := splitOn_append_of_stops name stops
  rw [Listing.words, Line.shown_instruction, split, List.head?_cons]

theorem shows_of_target {offset : Int16} {target : Nat} (member : offset ∈ instr.offsets)
    (found : relativeTarget (pc + instr.length) offset = some target) :
    Listing.Shows (Listing.words (Line.instruction index pc instr).shown) offset target := by
  obtain ⟨before, after, (operands : instr.operandText (pc + instr.length) = _), stops⟩ :=
    exists_operandText member
  have number : ' ' ∉ Numeral.signed offset.toInt := Numeral.not_mem_signed (by decide) (by decide) rfl
  have blank : ' ' ∉ Numeral.hex 4 target := Numeral.not_mem_hex rfl
  have digits : ' ' ∉ '0' :: 'x' :: Numeral.hex 4 target := by simp [blank]
  obtain ⟨others, last⟩ := splitOn_append_of_stops digits stops
  have shown : (Line.instruction index pc instr).shown = (instr.info.name.toList ++ before) ++ ' ' ::
      (Numeral.signed offset.toInt ++ ' ' ::
        (['-', '>'] ++ ' ' :: ('0' :: 'x' :: Numeral.hex 4 target ++ after))) := by
    rw [Line.shown_instruction, operands, jumpText_of_target found]
    simp only [String.reduceToList, List.append_assoc, List.cons_append, List.nil_append]
  refine ⟨Numeral.hex 4 target, ⟨Listing.words (instr.info.name.toList ++ before), others, ?_⟩,
    Numeral.hex?_hex 4 target⟩
  rw [Listing.words, Listing.words, shown, List.splitOn_append_cons_self,
    List.splitOn_append_cons_self_of_not_mem number,
    List.splitOn_append_cons_self_of_not_mem (by decide), last]
  simp

end Instruction

namespace Machine

theorem land_of_perform (jumps : instr.isJump)
    (h : perform host c running instr info next ctx s = .next ctx' t) : ctx'.index = ctx.index ∧
      land running.code next (instr.taken? ctx.stack.words) = .ok ctx'.pc := by
  cases instr with
  | rjump offset =>
    obtain ⟨pc, landed, rfl, _⟩ := goTo_next h
    exact ⟨rfl, landed⟩
  | rjumpi offset =>
    obtain ⟨w, stack, pc, popped, landed, rfl, _⟩ := select_next h
    rw [Instruction.taken?, DataStack.words_pop popped]
    exact ⟨rfl, landed⟩
  | rjumpv table =>
    obtain ⟨w, stack, pc, popped, landed, rfl, _⟩ := select_next h
    rw [Instruction.taken?, DataStack.words_pop popped]
    exact ⟨rfl, landed⟩
  | _ => nomatch jumps

theorem step_jump (here : ctx.At c running instr) (jumps : instr.isJump)
    (h : step host c ctx s = .next ctx' t) : ctx'.index = ctx.index ∧
      land running.code (ctx.pc + instr.length) (instr.taken? ctx.stack.words) = .ok ctx'.pc := by
  have steps := course host c ctx s
  generalize step host c ctx s = result at h steps
  cases steps with
  | performed there checked charged =>
    cases here.found.symm.trans there.found
    cases here.decoded.symm.trans there.decoded
    exact land_of_perform jumps h
  | _ => nomatch h

theorem shows_taken (here : ctx.At c running instr) (jumps : instr.isJump)
    (stepped : step host c ctx s = .next ctx' t) : ctx'.index = ctx.index ∧
      match instr.taken? ctx.stack.words with
      | some offset => Listing.Shows (Listing.words (Line.instruction ctx.index ctx.pc instr).shown) offset ctx'.pc
      | none => ctx'.pc = ctx.pc + instr.length := by
  obtain ⟨stays, landed⟩ := step_jump here jumps stepped
  refine ⟨stays, ?_⟩
  cases taken : instr.taken? ctx.stack.words with
  | none =>
    rw [taken] at landed
    exact (Except.ok.inj landed).symm
  | some offset =>
    rw [taken] at landed
    exact Instruction.shows_of_target (Instruction.mem_offsets_of_taken? taken) (land_eq_ok.1 landed).1

end Machine

namespace Context.OnTrack

theorem listed (h : ctx.OnTrack c) (legal : c.Legal) (here : ctx.At c running instr) :
    Line.instruction ctx.index ctx.pc instr ∈ c.listing := by
  have fine := legal.section_at here.found
  have line := fine.line_of_decode (h.boundary here.found) here.decoded
  refine Container.mem_listing.2 (.inl ⟨ctx.index, running, here.found, ?_⟩)
  rw [CodeSection.listing_of_whole fine.whole]
  exact List.mem_cons_of_mem _ (List.mem_map.2 ⟨_, line, rfl⟩)

theorem decodes (h : ctx.OnTrack c) (legal : c.Legal) (found : c.sections[ctx.index]? = some running)
    (inside : ctx.pc < running.code.size) : ∃ instr, ctx.At c running instr := by
  obtain ⟨instr, decoded⟩ := (legal.section_at found).decodes (h.boundary found) inside
  exact ⟨instr, found, decoded⟩

theorem at_of_halt (h : ctx.OnTrack c) (legal : c.Legal)
    (halted : Machine.step host c ctx s = .halt reason ctx' t) :
    ∃ running instr, ctx.At c running instr ∧ ctx'.index = ctx.index ∧ ctx'.pc = ctx.pc := by
  obtain ⟨stack, rfl⟩ := Machine.step_halt halted
  have steps := Machine.course host c ctx s
  generalize Machine.step host c ctx s = result at halted steps
  cases steps with
  | lost missing =>
    obtain ⟨running, found, _⟩ := h.here
    nomatch found.symm.trans missing
  | ended => nomatch halted
  | undecoded found inside fault =>
    obtain ⟨instr, here⟩ := h.decodes legal found inside
    nomatch here.decoded.symm.trans fault
  | unready here | unpaid here | performed here => exact ⟨_, _, here, rfl, rfl⟩

end Context.OnTrack

namespace Container

theorem ne_byte_of_mem_listing (legal : c.Legal) {line : Line} (member : line ∈ c.listing) (b : UInt8) :
    line ≠ .byte index pc b := by
  rintro rfl
  obtain ⟨i, running, found, among⟩ | last := mem_listing.1 member
  · rw [CodeSection.listing_of_whole (legal.section_at found).whole] at among
    simp at among
  · nomatch last

theorem not_byte_infix (legal : c.Legal) : ¬ ".byte".toList <:+: c.disassemble := by
  intro shown
  have dot : '.' ∈ c.disassemble := shown.mem (by decide)
  obtain ⟨line, listed, among⟩ := List.mem_flatMap.1 dot
  have plain : '.' ∉ line.text :=
    Line.not_mem_text (.inr rfl) fun _ _ b => ne_byte_of_mem_listing legal listed b
  obtain inside | newline := List.mem_append.1 among
  · exact plain inside
  · nomatch List.mem_singleton.1 newline

theorem entries_of_whole (found : c.sections[index]? = some running)
    (whole : (Sweep.ofCode running.code).fault = none) :
    (Listing.entries index c.disassemble).map Prod.fst = (Sweep.ofCode running.code).starts := by
  rw [entries_disassemble found, CodeSection.listing_of_whole whole, List.tail_cons, List.map_map, List.map_map]
  rfl

end Container

namespace Context.OnTrack

theorem printed (h : ctx.OnTrack c) (legal : c.Legal) (here : ctx.At c running instr) :
    (ctx.pc, Listing.words (Line.instruction ctx.index ctx.pc instr).shown) ∈
      Listing.entries ctx.index c.disassemble :=
  Container.mem_entries (h.listed legal here) (.inl ⟨instr, rfl⟩)

end Context.OnTrack

open Machine in
/-- The text that a validated container is listed as has no line for a byte, and in each section lines at just
the offsets where its validation found instructions. Whatever a run of it decodes stands on the line with its
place, by its name; so does what it fails at; and the line of a jump that is taken shows where it leads. -/
theorem listing_agrees {bytes : List UInt8} {c : Container} (valid : Container.load bytes = .ok c) :
    ¬ ".byte".toList <:+: c.disassemble ∧
    (∀ index running, c.sections[index]? = some running →
      (Listing.entries index c.disassemble).map Prod.fst = (Sweep.ofCode running.code).starts ∧
      ∀ pc, (Sweep.ofCode running.code).roles[pc]? = some .opcode ↔
        pc ∈ (Listing.entries index c.disassemble).map Prod.fst) ∧
    ∀ {σ : Type} (host : Host σ), host.Tactful → ∀ (limits : Limits) (s : σ) (n : Nat),
      (∀ ctx t, advance host c n (.initial limits) s = .next ctx t →
        ∃ running, c.sections[ctx.index]? = some running ∧ (ctx.pc < running.code.size →
          ∃ instr words, Instruction.decode running.code ctx.pc = .ok instr ∧
            (ctx.pc, words) ∈ Listing.entries ctx.index c.disassemble ∧
            words.head? = some instr.info.name.toList ∧
            ∀ ctx' u, step host c ctx t = .next ctx' u → instr.isJump → ctx'.index = ctx.index ∧
              match instr.taken? ctx.stack.words with
              | some offset => Listing.Shows words offset ctx'.pc
              | none => ctx'.pc = ctx.pc + instr.length)) ∧
      ∀ reason index pc depth u,
        runFor host c n (.initial limits) s = some (.exceptionalHalt reason index pc depth, u) →
        ∃ running instr words, c.sections[index]? = some running ∧
          Instruction.decode running.code pc = .ok instr ∧
          (pc, words) ∈ Listing.entries index c.disassemble ∧ words.head? = some instr.info.name.toList := by
  have legal := Container.legal_of_load valid
  refine ⟨Container.not_byte_infix legal, ?_, ?_⟩
  · intro index running found
    have whole := (legal.section_at found).whole
    have offsets := Container.entries_of_whole found whole
    refine ⟨offsets, ?_⟩
    intro pc
    rw [offsets, Sweep.role_iff_start whole]
  · intro σ host tactful limits s n
    have track (m : Nat) {ctx t} (reached : advance host c m (.initial limits) s = .next ctx t) :
        ctx.OnTrack c := by
      have kept := advance_onTrack legal tactful limits s m
      rwa [reached] at kept
    refine ⟨?_, ?_⟩
    · intro ctx t reached
      have h := track n reached
      obtain ⟨running, found, _⟩ := h.here
      refine ⟨running, found, ?_⟩
      intro inside
      obtain ⟨instr, here⟩ := h.decodes legal found inside
      refine ⟨instr, _, here.decoded, h.printed legal here, instr.head?_words_shown _ _, ?_⟩
      intro ctx' u stepped jumps
      exact shows_taken here jumps stepped
    · intro reason index pc depth u ended
      obtain ⟨m, before, v, after, reached, halted, rfl, rfl⟩ := halted_step ended
      have h := track m reached
      obtain ⟨running, instr, here, sameIndex, samePc⟩ := h.at_of_halt legal halted
      rw [sameIndex, samePc]
      exact ⟨running, instr, _, here.found, here.decoded, h.printed legal here, instr.head?_words_shown _ _⟩

open Machine in
/-- Behind a one on the stack, the jump over the invalid instruction is taken, and printed with its target. -/
theorem listing_agrees_skip :
    let skip := Container.assemble #[⟨⟨0, 0, 1⟩, #[0x60, 1, 0x5D, 0, 1, 0xFE, 0x00]⟩] []
    let ctx : Context := ⟨0, 2, ⟨1024, [1], 1, rfl⟩, .initial 1024⟩
    Container.load skip.encode = .ok skip ∧ Host.basic.Tactful ∧
      advance Host.basic skip 1 (.initial .default) (.full 100) = .next ctx ⟨100, 3⟩ ∧
      step Host.basic skip ctx ⟨100, 3⟩ = .next ⟨0, 6, .empty 1024, .initial 1024⟩ ⟨100, 7⟩ ∧
      ∃ words, (2, words) ∈ Listing.entries 0 skip.disassemble ∧ words.head? = some "RJUMPI".toList ∧
        Listing.Shows words 1 6 := by
  intro skip ctx
  have valid : Container.load skip.encode = .ok skip := Container.load_of_toOption (by decide +kernel)
  have reached : advance Host.basic skip 1 (.initial .default) (.full 100) = .next ctx ⟨100, 3⟩ := by
    decide +kernel
  have stepped : step Host.basic skip ctx ⟨100, 3⟩ = .next ⟨0, 6, .empty 1024, .initial 1024⟩ ⟨100, 7⟩ := by
    decide +kernel
  have decoded : Instruction.decode #[0x60, 1, 0x5D, 0, 1, 0xFE, 0x00] 2 = .ok (.rjumpi 1) := by
    decide +kernel
  have agrees := (listing_agrees valid).2.2 Host.basic Host.tactful_basic .default (.full 100) 1
  obtain ⟨running, found, inside⟩ := agrees.1 ctx _ reached
  obtain rfl := Option.some.inj found
  obtain ⟨instr, words, same, printed, name, jumps⟩ := inside (by decide)
  obtain rfl := Except.ok.inj (decoded.symm.trans same)
  exact ⟨valid, Host.tactful_basic, reached, stepped, words, printed, name, (jumps _ _ stepped rfl).2⟩

end EvmObject
