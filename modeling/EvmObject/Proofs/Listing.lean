import EvmObject.Proofs.ListingText
import EvmObject.Proofs.Sweep
import Mathlib.Data.List.Chain
/-!
What a listing tells of a container. Main statements: the lines of a section lie end to end and stand for
its code (`Line.Covers`, `CodeSection.covers_listing`), reading the text of a listing gives back the lines of
each section with their offsets (`Container.entries_disassemble`), and the text determines all that it is
made from (`Container.disassemble_eq_iff`).
-/
namespace EvmObject

variable {index pc : Nat} {line : Line} {lines : List Line} {covered : List UInt8}

namespace Line

def bytes : Line → List UInt8
  | instruction _ _ instr => instr.encode
  | byte _ _ b => [b]
  | heading .. | data _ => []

namespace StandsAt

theorem offset_eq (h : line.StandsAt index pc) : line.offset = pc := by
  obtain ⟨instr, rfl⟩ | ⟨b, rfl⟩ := h <;> rfl

theorem isCode (h : line.StandsAt index pc) : line.isCode := by
  obtain ⟨instr, rfl⟩ | ⟨b, rfl⟩ := h <;> rfl

end StandsAt

/-- Lines of the section at `index` that lie end to end from `pc` on and stand for these bytes. -/
inductive Covers (index : Nat) : (pc : Nat) → List Line → List UInt8 → Prop
  | nil (pc : Nat) : Covers index pc [] []
  | cons {pc : Nat} {line : Line} {lines : List Line} {bytes : List UInt8}
    (stands : line.StandsAt index pc)
    (rest : Covers index (pc + line.bytes.length) lines bytes) :
    Covers index pc (line :: lines) (line.bytes ++ bytes)

namespace Covers

theorem flatMap_bytes (h : Covers index pc lines covered) : lines.flatMap Line.bytes = covered := by
  induction h with
  | nil => rfl
  | cons stands rest ih => rw [List.flatMap_cons, ih]

theorem stands (h : Covers index pc lines covered) : ∀ line ∈ lines, line.StandsAt index line.offset := by
  induction h with
  | nil => nofun
  | cons stands rest ih =>
    rintro other member
    obtain rfl | later := List.mem_cons.1 member
    · rwa [stands.offset_eq]
    · exact ih other later

theorem first (h : Covers index pc lines covered) : ∀ line ∈ lines.head?, line.offset = pc := by
  cases h with
  | nil => nofun
  | cons stands rest =>
    rintro other same
    cases same
    exact stands.offset_eq

theorem chain (h : Covers index pc lines covered) :
    lines.IsChain fun a b => b.offset = a.offset + a.bytes.length := by
  induction h with
  | nil => exact .nil
  | cons stands rest ih =>
    rw [List.isChain_cons, stands.offset_eq]
    exact ⟨rest.first, ih⟩

theorem le_of_mem (h : Covers index pc lines covered) (member : line ∈ lines) : pc ≤ line.offset := by
  induction h with
  | nil => nomatch member
  | cons stands rest ih =>
    obtain rfl | later := List.mem_cons.1 member
    · exact Nat.le_of_eq stands.offset_eq.symm
    · exact Nat.le_trans (Nat.le_add_right _ _) (ih later)

theorem existsUnique (h : Covers index pc lines covered) {i : Nat} (low : pc ≤ i)
    (high : i < pc + covered.length) : ∃! k : Nat, ∃ line : Line, lines[k]? = some line ∧
      line.offset ≤ i ∧ i < line.offset + line.bytes.length := by
  induction h with
  | nil pc =>
    have : i < pc := high
    omega
  | @cons pc line lines bytes stands rest ih =>
    have start := stands.offset_eq
    -- Either the first line has the byte and the later ones start behind it, or the other way round.
    by_cases here : i < pc + line.bytes.length
    · refine ⟨0, ⟨line, rfl, by omega, by omega⟩, ?_⟩
      rintro k ⟨other, found, low', _⟩
      cases k with
      | zero => rfl
      | succ k =>
        have later := rest.le_of_mem (List.mem_of_getElem? found)
        omega
    · rw [List.length_append, ← Nat.add_assoc] at high
      obtain ⟨k, ⟨other, found, inside⟩, unique⟩ := ih (by omega) high
      refine ⟨k + 1, ⟨other, found, inside⟩, ?_⟩
      rintro m ⟨one, found', low', high'⟩
      cases m with
      | zero =>
        cases found'
        omega
      | succ m => rw [unique m ⟨one, found', low', high'⟩]

end Covers

theorem covers_byteLines (index pc : Nat) (bytes : List UInt8) :
    Covers index pc (CodeSection.byteLines index pc bytes) bytes := by
  induction bytes generalizing pc with
  | nil => exact .nil pc
  | cons b bytes ih => exact .cons (.inr ⟨b, rfl⟩) (ih (pc + 1))

theorem covers_tiles {code : Array UInt8} {stop : Nat} {swept : List (Nat × Instruction)}
    (h : Sweep.Tiles code pc swept stop) (rest : Covers index stop lines (code.toList.drop stop)) :
    Covers index pc (swept.map (fun l => instruction index l.1 l.2) ++ lines) (code.toList.drop pc) := by
  induction h with
  | nil => exact rest
  | @cons pc stop instr swept decoded tiles ih =>
    have there := List.prefix_iff_eq_append.1 (Instruction.decode_iff.1 decoded)
    rw [List.drop_drop, Instruction.length_encode] at there
    have shift : pc + (instruction index pc instr).bytes.length = pc + instr.length := by
      rw [bytes, Instruction.length_encode]
    rw [← there]
    exact .cons (.inl ⟨instr, rfl⟩) (shift ▸ ih rest)

def entry (line : Line) : Nat × List (List Char) :=
  (line.offset, Listing.words line.shown)

theorem StandsAt.read?_text {other : Nat} (h : line.StandsAt index pc) :
    Listing.read? other line.text = if index = other then some line.entry else none := by
  rw [Listing.read?, h.place?_text, entry, h.offset_eq]
  rfl

theorem Covers.filterMap_read? (h : Covers index pc lines covered) (other : Nat) :
    lines.filterMap (fun line => Listing.read? other line.text) =
      if index = other then lines.map entry else [] := by
  by_cases same : index = other
  · rw [if_pos same, ← List.filterMap_eq_map]
    refine List.filterMap_congr ?_
    intro line member
    rw [(h.stands line member).read?_text, if_pos same]
    rfl
  · rw [if_neg same, List.filterMap_eq_nil_iff]
    intro line member
    rw [(h.stands line member).read?_text, if_neg same]

theorem texts_inj {a b : List Line}
    (h : a.flatMap (fun line => line.text ++ ['\n']) = b.flatMap fun line => line.text ++ ['\n']) :
    a = b := by
  refine flatMap_inj ?_ (by simp) h
  intro x y r s same
  rw [List.append_assoc, List.append_assoc] at same
  obtain ⟨text, rest⟩ := stretch_inj_of_not_mem x.newline_not_mem_text y.newline_not_mem_text
    (stops_cons rfl) (stops_cons rfl) same
  exact ⟨text_inj text, (List.cons.inj rest).2⟩

end Line

theorem CodeSection.covers_listing (index : Nat) (s : CodeSection) : ∃ lines,
    s.listing index = .heading index s.type :: lines ∧ Line.Covers index 0 lines s.code.toList := by
  refine ⟨_, rfl, Line.covers_tiles (Sweep.tiles_reach s.code) ?_⟩
  cases fault : (Sweep.ofCode s.code).fault with
  | some stuck =>
    rw [Sweep.reach, fault]
    exact Line.covers_byteLines index stuck.1 _
  | none =>
    rw [Sweep.reach, fault, ← Array.length_toList, List.drop_length]
    exact .nil _

theorem CodeSection.filterMap_read? (s : CodeSection) (index other : Nat) :
    (s.listing index).filterMap (fun line => Listing.read? other line.text) =
      if index = other then (s.listing index).tail.map Line.entry else [] := by
  obtain ⟨lines, shape, covers⟩ := s.covers_listing index
  have none : Listing.read? other (Line.heading index s.type).text = none := by
    rw [Listing.read?, Line.place?_text_heading]
    rfl
  rw [shape, List.filterMap_cons, none]
  exact covers.filterMap_read? other

theorem CodeSection.listing_of_whole {s : CodeSection} (whole : (Sweep.ofCode s.code).fault = none) :
    s.listing index = .heading index s.type ::
      (Sweep.ofCode s.code).lines.map fun l => .instruction index l.1 l.2 := by
  simp [listing, whole]

namespace Container

theorem mem_listing {c : Container} : line ∈ c.listing ↔
    (∃ (i : Nat) (s : CodeSection), c.sections[i]? = some s ∧ line ∈ s.listing i) ∨
      line = .data c.data.length := by
  simp only [listing, List.mem_append, List.mem_flatMap, Prod.exists, List.mem_zipIdx_iff_getElem?,
    Array.getElem?_toList, List.mem_singleton]
  rw [exists_comm]

theorem lines_disassemble (c : Container) :
    Listing.lines c.disassemble = c.listing.map Line.text := by
  have whole : ∀ text ∈ c.listing.map Line.text, '\n' ∉ text := by
    intro text member
    obtain ⟨line, _, rfl⟩ := List.mem_map.1 member
    exact line.newline_not_mem_text
  rw [← Listing.lines_flatMap whole, List.flatMap_map]
  rfl

theorem mem_entries {c : Container} (listed : line ∈ c.listing) (stands : line.StandsAt index pc) :
    (pc, Listing.words line.shown) ∈ Listing.entries index c.disassemble := by
  refine List.mem_filterMap.2 ⟨line.text, ?_, ?_⟩
  · rw [lines_disassemble]
    exact List.mem_map_of_mem listed
  · rw [stands.read?_text, if_pos rfl, Line.entry, stands.offset_eq]

theorem entries_disassemble {c : Container} {s : CodeSection} (found : c.sections[index]? = some s) :
    Listing.entries index c.disassemble = (s.listing index).tail.map Line.entry := by
  have last : Listing.read? index (Line.data c.data.length).text = none := by
    rw [Listing.read?, Line.place?_text_data]
    rfl
  have each (t : CodeSection × Nat) :
      (t.1.listing t.2).filterMap (fun line => Listing.read? index line.text) =
        if t.2 = 0 + index then (t.1.listing index).tail.map Line.entry else [] := by
    rw [t.1.filterMap_read?, Nat.zero_add]
    split
    · rename_i same
      rw [same]
    · rfl
  have sections : (c.sections.toList.zipIdx.flatMap fun t =>
      (t.1.listing t.2).filterMap fun line => Listing.read? index line.text) =
        (s.listing index).tail.map Line.entry := by
    have single := flatMap_zipIdx_of_index (fun t : CodeSection => (t.listing index).tail.map Line.entry)
      c.sections.toList 0 index
    rw [Array.getElem?_toList, found] at single
    simp only [each]
    exact single
  rw [Listing.entries, lines_disassemble, List.filterMap_map, listing, List.filterMap_append,
    List.filterMap_flatMap]
  change _ ++ [Line.data c.data.length].filterMap (fun line => Listing.read? index line.text) = _
  rw [List.filterMap_cons, last]
  exact (List.append_nil _).trans sections

theorem stops_listing (k : Nat) (ss : List CodeSection) (length : Nat) :
    Stops Line.isCode ((ss.zipIdx k).flatMap (fun s => s.1.listing s.2) ++ [.data length]) := by
  cases ss with
  | nil => exact stops_cons rfl
  | cons s ss => exact stops_cons rfl

theorem listing_inj {k m n : Nat} {ss ts : List CodeSection}
    (h : (ss.zipIdx k).flatMap (fun s => s.1.listing s.2) ++ [Line.data m] =
      (ts.zipIdx k).flatMap (fun s => s.1.listing s.2) ++ [Line.data n]) : ss = ts ∧ m = n := by
  induction ss generalizing k ts with
  | nil =>
    cases ts with
    | nil =>
      cases h
      exact ⟨rfl, rfl⟩
    | cons t ts => nomatch h
  | cons s ss ih =>
    cases ts with
    | nil => nomatch h
    | cons t ts =>
      -- The lines of the first section reach up to the next heading, or to the line of the data.
      obtain ⟨ls, hs, covers⟩ := s.covers_listing k
      obtain ⟨lt, ht, covers'⟩ := t.covers_listing k
      simp only [List.zipIdx_cons, List.flatMap_cons, hs, ht, List.cons_append, List.append_assoc,
        List.cons.injEq, Line.heading.injEq, true_and] at h
      obtain ⟨type, h⟩ := h
      obtain ⟨rfl, rest⟩ := stretch_inj (fun line among => (covers.stands line among).isCode)
        (fun line among => (covers'.stands line among).isCode) (stops_listing _ _ _) (stops_listing _ _ _) h
      have bytes := covers.flatMap_bytes.symm.trans covers'.flatMap_bytes
      have code : s.code = t.code := Array.toList_inj.1 bytes
      obtain ⟨rfl, rfl⟩ := ih rest
      cases s
      cases t
      cases type
      cases code
      exact ⟨rfl, rfl⟩

theorem sections_eq_iff {ss ts : Array CodeSection} :
    ss = ts ↔ ss.map CodeSection.type = ts.map CodeSection.type ∧
      ss.map CodeSection.code = ts.map CodeSection.code := by
  have columns (us : Array CodeSection) :
      us = Array.zipWith CodeSection.mk (us.map CodeSection.type) (us.map CodeSection.code) := by
    simp [Array.zipWith_map, Array.zipWith_self]
  constructor
  · rintro rfl
    exact ⟨rfl, rfl⟩
  · rintro ⟨types, codes⟩
    rw [columns ss, types, codes, ← columns ts]

theorem disassemble_eq_iff {c d : Container} :
    c.disassemble = d.disassemble ↔ c.sections = d.sections ∧ c.data.length = d.data.length := by
  constructor
  · intro h
    obtain ⟨sections, data⟩ := listing_inj (Line.texts_inj h)
    exact ⟨Array.toList_inj.1 sections, data⟩
  · rintro ⟨sections, data⟩
    rw [disassemble, disassemble, listing, listing, sections, data]

/-- Two listings have the same text just if types, code and the length of the data are the same. What is read
of the text for a section are the offsets and the words of its lines, each with section and offset in front.
The offsets start at zero, each follows from the line before, and each byte belongs to just one line. -/
theorem disassemble_lossless (c d : Container) :
    (c.disassemble = d.disassemble ↔
      c.sections.map CodeSection.type = d.sections.map CodeSection.type ∧
      c.sections.map CodeSection.code = d.sections.map CodeSection.code ∧
      c.data.length = d.data.length) ∧
    ∀ (index : Nat) (s : CodeSection), c.sections[index]? = some s → ∃ lines,
      s.listing index = .heading index s.type :: lines ∧
      Listing.entries index c.disassemble = lines.map (fun l => (l.offset, Listing.words l.shown)) ∧
      (∀ line ∈ lines, line.StandsAt index line.offset ∧ line.text ∈ Listing.lines c.disassemble ∧
        line.text = Numeral.decimal index ++ ':' :: Numeral.hex 4 line.offset ++ ' ' :: ' ' :: line.shown) ∧
      (∀ line ∈ lines.head?, line.offset = 0) ∧
      lines.IsChain (fun a b => b.offset = a.offset + a.bytes.length) ∧
      lines.flatMap Line.bytes = s.code.toList ∧
      ∀ pc < s.code.size, ∃! k : Nat, ∃ line : Line, lines[k]? = some line ∧
        line.offset ≤ pc ∧ pc < line.offset + line.bytes.length := by
  refine ⟨?_, ?_⟩
  · rw [disassemble_eq_iff, sections_eq_iff, and_assoc]
  · intro index s found
    obtain ⟨lines, shape, covers⟩ := s.covers_listing index
    have read : Listing.entries index c.disassemble = lines.map Line.entry := by
      rw [entries_disassemble found, shape, List.tail_cons]
    refine ⟨lines, shape, read, ?_, covers.first, covers.chain, covers.flatMap_bytes, ?_⟩
    · intro line member
      have stands := covers.stands line member
      have listed : line ∈ c.listing :=
        mem_listing.2 (.inl ⟨index, s, found, shape ▸ List.mem_cons_of_mem _ member⟩)
      refine ⟨stands, ?_, stands.text_eq⟩
      rw [lines_disassemble]
      exact List.mem_map_of_mem listed
    · intro pc inside
      refine covers.existsUnique (Nat.zero_le _) ?_
      rwa [Nat.zero_add, Array.length_toList]

/-- Pushes cut off behind a stop are told apart by their bytes, each of which has a line of its own. -/
theorem disassemble_lossless_cut :
    let push (b : UInt8) : CodeSection := ⟨⟨0, 0, 1⟩, #[0x00, b]⟩
    (assemble #[push 0x60] []).disassemble ≠ (assemble #[push 0x61] []).disassemble ∧
      ∃ lines, (push 0x60).listing 0 = .heading 0 ⟨0, 0, 1⟩ :: lines ∧
        Listing.entries 0 (assemble #[push 0x60] []).disassemble =
          lines.map (fun l => (l.offset, Listing.words l.shown)) ∧
        ∃! k : Nat, ∃ line : Line, lines[k]? = some line ∧
          line.offset ≤ 1 ∧ 1 < line.offset + line.bytes.length := by
  intro push
  obtain ⟨equal, parts⟩ := disassemble_lossless (assemble #[push 0x60] []) (assemble #[push 0x61] [])
  refine ⟨?_, ?_⟩
  · intro same
    have codes := (equal.1 same).2.1
    simp [assemble, push] at codes
  · obtain ⟨lines, shape, read, _, _, _, _, unique⟩ := parts 0 (push 0x60) rfl
    exact ⟨lines, shape, read, unique 1 (by decide)⟩

end Container
end EvmObject
