import EvmObject.Creation
import EvmObject.Proofs.Decoding
/-!
The gate agrees with the decoder and with validation. Main statements: the decoder misses the magic just in
bytes that are taken for legacy code (`Container.decode_eq_badMagic`), and the gate leaves these to others,
deploys just what loads, and rejects all else for the reason that loading gives (`judge_agrees`).
-/
namespace EvmObject

variable {α β : Type} {bytes : List UInt8} {start stop : Cursor} {e : LayoutError}

namespace Reader

def PastMagic (r : Reader α) : Prop :=
  ∀ start stop, r start ≠ .error .badMagic stop

variable {r : Reader α} {f : α → Reader β}

theorem pastMagic_pure (a : α) : (pure a : Reader α).PastMagic := nofun

theorem pastMagic_throw (other : e ≠ .badMagic) : (throw e : Reader α).PastMagic := by
  intro start stop failed
  change EStateM.Result.error e start = _ at failed
  cases failed
  exact other rfl

theorem PastMagic.bind (first : r.PastMagic) (later : ∀ a, (f a).PastMagic) : (r >>= f).PastMagic := by
  intro start stop failed
  obtain failed | ⟨a, mid, _, failed⟩ := bind_eq_error.1 failed
  · exact first start stop failed
  · exact later a mid stop failed

theorem PastMagic.ite {p : Prop} [Decidable p] {q : Reader α} (yes : r.PastMagic) (no : q.PastMagic) :
    (if p then r else q).PastMagic := by
  split
  · exact yes
  · exact no

theorem pastMagic_offset : offset.PastMagic := nofun

theorem pastMagic_remaining : remaining.PastMagic := nofun

theorem pastMagic_byte : byte.PastMagic := by
  intro start stop
  unfold byte
  split <;> nofun

theorem pastMagic_word16 : word16.PastMagic := by
  intro start stop
  unfold word16
  split <;> nofun

theorem pastMagic_take (n : Nat) : (take n).PastMagic := by
  intro start stop
  unfold take
  dsimp only
  split <;> nofun

end Reader

open Reader

namespace Header

theorem pastMagic_readVersion : readVersion.PastMagic :=
  pastMagic_byte.bind fun _ => .ite (pastMagic_pure _) (pastMagic_throw nofun)

theorem pastMagic_readKind (expected : UInt8) : (readKind expected).PastMagic :=
  pastMagic_offset.bind fun _ => pastMagic_byte.bind fun _ =>
    .ite (pastMagic_pure _) (pastMagic_throw nofun)

theorem pastMagic_readCount (typeSize : UInt16) : (readCount typeSize).PastMagic :=
  pastMagic_word16.bind fun _ => .ite (pastMagic_throw nofun)
    (.ite (pastMagic_pure _) (pastMagic_throw nofun))

theorem pastMagic_readSizes (index count : Nat) : (readSizes index count).PastMagic := by
  induction count generalizing index with
  | zero => exact pastMagic_pure []
  | succ count ih =>
    exact pastMagic_word16.bind fun _ => .ite (pastMagic_throw nofun)
      ((ih (index + 1)).bind fun _ => pastMagic_pure _)

theorem pastMagic_readTerminator : readTerminator.PastMagic :=
  pastMagic_offset.bind fun _ => pastMagic_byte.bind fun _ =>
    .ite (pastMagic_pure _) (pastMagic_throw nofun)

theorem read_eq_badMagic : read start = .error .badMagic stop ↔ readMagic start = .error .badMagic stop := by
  rw [read, Reader.bind_eq_error]
  constructor
  · rintro (failed | ⟨_, mid, _, failed⟩)
    · exact failed
    · refine absurd failed (pastMagic_readVersion.bind (fun _ => ?_) mid stop)
      refine (pastMagic_readKind _).bind fun _ => pastMagic_word16.bind fun _ => ?_
      refine (pastMagic_readKind _).bind fun _ => (pastMagic_readCount _).bind fun _ => ?_
      refine (pastMagic_readSizes _ _).bind fun _ => (pastMagic_readKind _).bind fun _ => ?_
      exact pastMagic_word16.bind fun _ => pastMagic_readTerminator.bind fun _ => pastMagic_pure _
  · exact .inl

theorem readMagic_eq_badMagic :
    (∃ stop, readMagic (Cursor.ofBytes bytes) = .error .badMagic stop) ↔ CodeKind.ofBytes bytes = .legacy := by
  obtain _ | ⟨a, _ | ⟨b, rest⟩⟩ := bytes
  · simp [readMagic, Cursor.ofBytes, CodeKind.ofBytes]
  · simp [readMagic, Cursor.ofBytes, CodeKind.ofBytes]
  · by_cases magic : [a, b] = Layout.magic
    · simp [readMagic, Cursor.ofBytes, CodeKind.ofBytes, magic]
    · simp [readMagic, Cursor.ofBytes, CodeKind.ofBytes, magic]

end Header

theorem CodeType.pastMagic_readTable (count : Nat) : (readTable count).PastMagic := by
  induction count with
  | zero => exact pastMagic_pure []
  | succ count ih =>
    have first : read.PastMagic :=
      pastMagic_byte.bind fun _ => pastMagic_byte.bind fun _ => pastMagic_word16.bind fun _ => pastMagic_pure _
    exact first.bind fun _ => ih.bind fun _ => pastMagic_pure _

namespace Container

variable {c : Container}

theorem pastMagic_readCodes (sizes : List UInt16) : (readCodes sizes).PastMagic := by
  induction sizes with
  | nil => exact pastMagic_pure []
  | cons size sizes ih =>
    exact (pastMagic_take size.toNat).bind fun _ => ih.bind fun _ => pastMagic_pure _

theorem pastMagic_readBody (h : Header) : (readBody h).PastMagic :=
  (CodeType.pastMagic_readTable _).bind fun _ => (pastMagic_readCodes _).bind fun _ =>
    (pastMagic_take _).bind fun _ => pastMagic_pure _

theorem read_eq_badMagic :
    read start = .error .badMagic stop ↔ Header.readMagic start = .error .badMagic stop := by
  rw [read, Reader.bind_eq_error, Header.read_eq_badMagic]
  constructor
  · rintro (failed | ⟨h, mid, _, failed⟩)
    · exact failed
    · refine absurd failed (pastMagic_remaining.bind (fun _ => ?_) mid stop)
      exact .ite (pastMagic_readBody h) (pastMagic_throw (by simp))
  · exact .inl

theorem decode_eq_badMagic : decode bytes = .error .badMagic ↔ CodeKind.ofBytes bytes = .legacy := by
  rw [decode, answer_eq_error, ← Header.readMagic_eq_badMagic]
  simp only [read_eq_badMagic]

theorem load_eq_layout : load bytes = .error (.layout e) ↔ decode bytes = .error e := by
  rw [load]
  cases decode bytes with
  | error e => simp
  | ok c =>
    dsimp only
    cases c.validate <;> simp

theorem encode_of_load (loaded : load bytes = .ok c) : c.encode = bytes :=
  (decode_eq_ok.1 (load_eq_ok.1 loaded).1).2

end Container

namespace CreationFlow

open Container

variable {flow : CreationFlow} {c : Container} {e e' : ContainerError}

theorem judge_cases (flow : CreationFlow) (bytes : List UInt8) :
    (CodeKind.ofBytes bytes = .legacy ∧ load bytes = .error (.layout .badMagic) ∧
        flow.judge bytes = .legacy) ∨
      (∃ c, CodeKind.ofBytes bytes = .container ∧ load bytes = .ok c ∧ flow.judge bytes = .deploy c) ∨
      ∃ e, CodeKind.ofBytes bytes = .container ∧ load bytes = .error e ∧ e ≠ .layout .badMagic ∧
        flow.judge bytes = flow.reject e := by
  cases kind : CodeKind.ofBytes bytes with
  | legacy =>
    have missed := load_eq_layout.2 (decode_eq_badMagic.2 kind)
    exact .inl ⟨rfl, missed, by rw [judge, kind]⟩
  | container =>
    cases loaded : load bytes with
    | ok c => exact .inr (.inl ⟨c, rfl, rfl, by rw [judge, kind, loaded]⟩)
    | error e =>
      refine .inr (.inr ⟨e, rfl, rfl, ?_, by rw [judge, kind, loaded]⟩)
      rintro rfl
      nomatch kind.symm.trans (decode_eq_badMagic.1 (load_eq_layout.1 loaded))

theorem judge_of_load (loaded : load bytes = .ok c) : flow.judge bytes = .deploy c := by
  obtain ⟨_, failed, _⟩ | ⟨d, _, again, judged⟩ | ⟨e, _, failed, _⟩ := flow.judge_cases bytes
  · nomatch loaded.symm.trans failed
  · cases loaded.symm.trans again
    exact judged
  · nomatch loaded.symm.trans failed

theorem reject_eq_creationFailed : flow.reject e = .creationFailed e' ↔ flow = .transaction ∧ e = e' := by
  cases flow <;> simp [reject]

theorem reject_eq_pushZero :
    flow.reject e = .pushZero e' ↔ (flow = .create ∨ flow = .create2) ∧ e = e' := by
  cases flow <;> simp [reject]

theorem reject_ne_legacy : flow.reject e ≠ .legacy := by
  cases flow <;> nofun

theorem reject_ne_deploy : flow.reject e ≠ .deploy c := by
  cases flow <;> nofun

/-- Initcode is left to others just if it misses the magic, which the decoder says of the same bytes. It is
deployed just if it loads, and so it is again once written back. Otherwise it is rejected for the reason that
loading gives, in the way of the flow. -/
theorem judge_agrees (flow : CreationFlow) (initcode : List UInt8) :
    (flow.judge initcode = .legacy ↔ CodeKind.ofBytes initcode = .legacy) ∧
    (CodeKind.ofBytes initcode = .legacy ↔ decode initcode = .error .badMagic) ∧
    (∀ c, flow.judge initcode = .deploy c ↔ load initcode = .ok c) ∧
    (∀ c, load initcode = .ok c → c.encode = initcode ∧ load c.encode = .ok c ∧
      ∀ again : CreationFlow, again.judge c.encode = .deploy c) ∧
    (∀ e, flow.judge initcode = .creationFailed e ↔
      flow = .transaction ∧ load initcode = .error e ∧ e ≠ .layout .badMagic) ∧
    ∀ e, flow.judge initcode = .pushZero e ↔
      (flow = .create ∨ flow = .create2) ∧ load initcode = .error e ∧ e ≠ .layout .badMagic := by
  have again : ∀ c, load initcode = .ok c → c.encode = initcode ∧ load c.encode = .ok c ∧
      ∀ again : CreationFlow, again.judge c.encode = .deploy c := by
    intro c loaded
    have same := encode_of_load loaded
    rw [same]
    exact ⟨rfl, loaded, fun _ => judge_of_load loaded⟩
  obtain ⟨kind, failed, judged⟩ | ⟨c, kind, loaded, judged⟩ | ⟨e, kind, failed, other, judged⟩ :=
    flow.judge_cases initcode
  · refine ⟨?_, decode_eq_badMagic.symm, ?_, again, ?_, ?_⟩
    all_goals simp [kind, failed, judged]
  · refine ⟨?_, decode_eq_badMagic.symm, ?_, again, ?_, ?_⟩
    all_goals simp [kind, loaded, judged]
  · have reason : ∀ e', e = e' ↔ load initcode = .error e' ∧ e' ≠ .layout .badMagic := by
      intro e'
      rw [failed, Except.error.injEq]
      exact ⟨fun same => ⟨same, same ▸ other⟩, And.left⟩
    refine ⟨?_, decode_eq_badMagic.symm, ?_, again, ?_, ?_⟩
    · simp [kind, judged, reject_ne_legacy]
    · simp [judged, failed, reject_ne_deploy]
    · intro e'
      rw [judged, reject_eq_creationFailed, reason]
    · intro e'
      rw [judged, reject_eq_pushZero, reason]

end CreationFlow
end EvmObject
