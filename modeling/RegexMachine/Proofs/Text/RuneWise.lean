import RegexMachine.Proofs.Rune.Folding
import RegexMachine.Proofs.Text.Joining
import RegexMachine.Rune.Repertoire

/-! # Folding rune by rune

A text is folded by encoding the foldings of its runes one behind the other. Encoded
scalar values are read as what they encode, so nothing runs together or falls apart
where two of them meet: what is read of the folded text are the foldings of what is read
of the text, be that well formed or not. -/

namespace RegexMachine

namespace Octets

open Utf8 (encode)

variable {text : Octets} {first last : Nat} {fold : Rune → Rune}

def runes (text : Octets) : List Rune := (text.units 0 text.size).map (·.rune)

theorem unitFrom_of_mem_units {unit : TextUnit} (member : unit ∈ text.units first last) :
    text.unitFrom unit.first last = unit := by
  fun_induction units text first last with
  | case1 first nonempty induction =>
      rcases List.mem_cons.mp member with rfl | later
      · rw [unitFrom_first]
      · exact induction later
  | case2 first ended => cases member

theorem isScalar_runes {rune : Rune} (member : rune ∈ text.runes) : rune.IsScalar := by
  obtain ⟨unit, read, rfl⟩ := List.mem_map.mp member
  rw [← unitFrom_of_mem_units read]
  exact isScalar_unitFrom text _ _

theorem rune_of_undecoded {unit : TextUnit} (member : unit ∈ text.units 0 text.size)
    (undecoded : ∀ rune : Rune, rune.IsScalar → ¬encode rune <+: text.toList.drop unit.first) :
    unit.rune = Rune.replacement := by
  rw [← unitFrom_of_mem_units member, unitFrom_of_undecoded]
  exact Utf8.decode?_eq_none_iff_encode.mpr undecoded

theorem runes_of_encodings {list : List Rune} (scalars : ∀ rune ∈ list, rune.IsScalar) :
    runes (list.flatMap encode).toArray = list :=
  units_of_encodings scalars rfl

theorem isScalar_foldings (folding : Rune.IsFolding fold) (text : Octets) :
    ∀ rune ∈ text.runes.map fold, rune.IsScalar := by
  intro rune member
  obtain ⟨origin, read, rfl⟩ := List.mem_map.mp member
  exact folding.scalar origin (isScalar_runes read)

theorem runes_foldCase (folding : Rune.IsFolding fold) (text : Octets) :
    (text.foldCase fold).runes = text.runes.map fold := by
  rw [foldCase_eq]
  exact runes_of_encodings (isScalar_foldings folding text)

theorem foldCase_foldCase (folding : Rune.IsFolding fold) (text : Octets) :
    (text.foldCase fold).foldCase fold = text.foldCase fold := by
  have again : (text.runes.map fold).map fold = text.runes.map fold := by
    rw [List.map_map]
    exact List.map_congr_left fun rune _ => folding.idempotent rune
  calc (text.foldCase fold).foldCase fold
      = (((text.runes.map fold).map fold).flatMap encode).toArray := by
        rw [foldCase_eq, ← runes, runes_foldCase folding]
    _ = text.foldCase fold := by rw [again, foldCase_eq, runes]

/-- Folding a text is folding its runes: the folded text is well formed, its runes are the
foldings of the runes of the text in their order, with the replacement for every octet that
belongs to no sequence, folding it again changes nothing, and at any cut the text can be
folded in two parts. -/
theorem foldCase_runeWise (folding : Rune.IsFolding fold) (text : Octets) :
    (text.foldCase fold).runes = text.runes.map fold ∧
      (∀ (index : Nat) unit, (text.units 0 text.size)[index]? = some unit →
        (∀ rune : Rune, rune.IsScalar → ¬encode rune <+: text.toList.drop unit.first) →
          (text.foldCase fold).runes[index]? = some Rune.replacement) ∧
      (text.foldCase fold).WellFormed ∧
      (text.foldCase fold).foldCase fold = text.foldCase fold ∧
      ∀ front back, text = front ++ back → text.IsCut 0 text.size front.size →
        text.foldCase fold = front.foldCase fold ++ back.foldCase fold := by
  refine ⟨runes_foldCase folding text, fun index unit found undecoded => ?_,
    .foldCase text fold, foldCase_foldCase folding text, ?_⟩
  · have stray := rune_of_undecoded (List.mem_of_getElem? found) undecoded
    rw [runes_foldCase folding, runes, List.map_map, List.getElem?_map, found, Option.map_some,
      Function.comp_apply, stray, folding.replacement]
  · rintro front back rfl cut
    exact foldCase_join fold cut

def kelvinBehindStray : Octets := #[0x41, 0xC3, 0xE2, 0x84, 0xAA]

open scoped Repertoire in
theorem kelvinBehindStray_runeWise :
    Rune.IsFolding Rune.caseFold ∧
      (kelvinBehindStray.foldCase Rune.caseFold).runes = [0x61, Rune.replacement, 0x6B] ∧
      kelvinBehindStray.foldCase Rune.caseFold =
        foldCase #[0x41, 0xC3] Rune.caseFold ++
          foldCase #[0xE2, 0x84, 0xAA] Rune.caseFold := by
  obtain ⟨runeWise, -, -, -, joins⟩ :=
    foldCase_runeWise Repertoire.isFolding_caseFold kelvinBehindStray
  have read : kelvinBehindStray.runes = [0x41, Rune.replacement, 0x212A] := by cbv
  have lead : kelvinBehindStray[2]? = some 0xE2 := rfl
  have cut : kelvinBehindStray.IsCut 0 5 2 :=
    isCut_of_isLead (by decide) (by decide) lead (by decide)
  refine ⟨Repertoire.isFolding_caseFold, ?_, joins #[0x41, 0xC3] #[0xE2, 0x84, 0xAA] rfl cut⟩
  rw [runeWise, read]
  decide +kernel

end Octets

end RegexMachine
