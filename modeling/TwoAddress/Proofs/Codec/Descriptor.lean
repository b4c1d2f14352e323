/-
# `Proofs.Codec.Descriptor` — descriptors pass through text unharmed, and through checks

Every descriptor is read from its own text as it was written, whatever its name
holds and whether or not it breaks a rule (`read?_toText`). The rules are looked
at after that and for every text, so a sound descriptor comes back as a target and
an unsound one as the first rule that it breaks, with its name.
-/
import TwoAddress.Command
import TwoAddress.Proofs.Codec.Lossless
import TwoAddress.Proofs.Json.RoundTrip

namespace TwoAddress

open Json

/-- The descriptor that a text spells, before any rule is looked at. -/
def Descriptor.ofText? (text : List Char) : Option Descriptor :=
  (read? text).bind Descriptor.ofJson?

theorem Descriptor.ofText?_toText (d : Descriptor) : Descriptor.ofText? d.toText = some d := by
  rw [Descriptor.ofText?, Descriptor.toText, read?_pretty, Option.bind_some,
    Descriptor.ofJson?_toJson]

namespace Target

variable {d : Descriptor} {t : Target} {text : List Char}

theorem ofText_of_some (h : Descriptor.ofText? text = some d) : ofText text = d.toTarget := by
  have hread : (read? text).bind Descriptor.ofJson? = some d := h
  rw [ofText, hread]

theorem ofText_of_none (h : Descriptor.ofText? text = none) : ofText text = .error .json := by
  have hread : (read? text).bind Descriptor.ofJson? = none := h
  rw [ofText, hread]

theorem toTarget_eq_ok_iff : d.toTarget = .ok t ↔ t.toDescriptor = d := by
  rw [← ofDescriptor_eq_ok_iff, Descriptor.toTarget]
  cases ofDescriptor d with
  | ok t' => simp [Except.mapError]
  | error fault => exact ⟨fun h => (nomatch h), fun h => (nomatch h)⟩

theorem toTarget_of_fault {fault : Descriptor.Fault} (h : d.fault? = some fault) :
    d.toTarget = .error (.descriptor d.name fault) := by
  rw [Descriptor.toTarget, ofDescriptor_eq_error_iff.mpr h]
  rfl

theorem exists_target (h : d.fault? = none) : ∃ t : Target, t.toDescriptor = d :=
  ⟨⟨d, h⟩, rfl⟩

/-- A descriptor that breaks no rule is read from its text as the target that it
describes, and one that breaks a rule is refused with its name and the first rule
that it breaks. So it is with any text that spells it, whether as it stands or as
the content of a file; nothing else is ever read as a target. -/
theorem ofText_toText (d : Descriptor) :
    (d.fault? = none → ∃ t : Target, ofText d.toText = .ok t ∧ t.toDescriptor = d) ∧
    (∀ fault, d.fault? = some fault → ofText d.toText = .error (.descriptor d.name fault)) ∧
    (∀ text, Descriptor.ofText? text = some d → ∀ fault, d.fault? = some fault →
      ofText text = .error (.descriptor d.name fault) ∧
      Command.loadTarget (.ok text) = .error (.descriptor d.name fault)) ∧
    ∀ file t, Command.loadTarget file = .ok t →
      ∃ text, file = .ok text ∧ Descriptor.ofText? text = some t.toDescriptor ∧
        t.toDescriptor.fault? = none := by
  have hown := d.ofText?_toText
  refine ⟨?_, ?_, ?_, ?_⟩
  · intro h
    obtain ⟨t, ht⟩ := exists_target h
    exact ⟨t, (ofText_of_some hown).trans (toTarget_eq_ok_iff.mpr ht), ht⟩
  · intro fault h
    exact (ofText_of_some hown).trans (toTarget_of_fault h)
  · intro text htext fault h
    have hrefused := (ofText_of_some htext).trans (toTarget_of_fault h)
    exact ⟨hrefused, hrefused⟩
  · intro file t h
    cases file with
    | error reason => exact nomatch h
    | ok text =>
        have hok : ofText text = .ok t := h
        cases hread : Descriptor.ofText? text with
        | none => exact nomatch (ofText_of_none hread).symm.trans hok
        | some d' =>
            rw [ofText_of_some hread] at hok
            obtain rfl := toTarget_eq_ok_iff.mp hok
            exact ⟨text, rfl, hread, t.sound⟩

/-- A descriptor with quotation marks, a backslash and control characters in its
name, once as it may be and once with a scale that no target has. -/
theorem ofText_toText_quoted_name :
    let sound : Descriptor :=
      ⟨"\"a\\\n\x01\u03bb", some ⟨2, [4, 1, 4]⟩, true, some ⟨255⟩, true, 18446744073709551615⟩
    let unsound : Descriptor := { sound with addressing := some ⟨2, [4, 3, 0]⟩ }
    (sound.fault? = none ∧ ∃ t : Target, ofText sound.toText = .ok t ∧ t.toDescriptor = sound) ∧
      unsound.fault? = some (.scale 3) ∧
      ofText unsound.toText = .error (.descriptor sound.name (.scale 3)) := by
  intro sound unsound
  have hsound : sound.fault? = none := by decide
  have hunsound : unsound.fault? = some (.scale 3) := by decide
  exact ⟨⟨hsound, (ofText_toText sound).1 hsound⟩, hunsound,
    (ofText_toText unsound).2.1 (.scale 3) hunsound⟩

end Target

end TwoAddress
