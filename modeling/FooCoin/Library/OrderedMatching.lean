import Mathlib.Data.List.NodupEquivFin
import Mathlib.Data.List.Forall2

/-!
# Matchings that keep the order

The elements of one list are matched with elements of another one, later ones with later ones.
Giving each element the first partner that fits finds a matching whenever there is one.
-/

namespace OrderedMatching

variable {α β : Type} (fits : α → β → Bool)

/-- Match each element with the first partner that fits and follows the partners before. -/
def greedy : List α → List β → Bool
  | [], _ => true
  | _ :: _, [] => false
  | element :: elements, partner :: partners =>
      if fits element partner then greedy elements partners
      else greedy (element :: elements) partners

/-- The elements are matched with some of the partners, in their order. -/
def Matched (elements : List α) (partners : List β) : Prop :=
  ∃ chosen, chosen.Sublist partners ∧
    List.Forall₂ (fun element partner => fits element partner = true) elements chosen

variable {fits} {element : α} {elements : List α} {partner : β} {partners : List β}

theorem matched_nil (partners : List β) : Matched fits [] partners :=
  ⟨[], partners.nil_sublist, .nil⟩

theorem not_matched_nil : ¬Matched fits (element :: elements) [] := by
  rintro ⟨chosen, listed, pairs⟩
  obtain rfl := List.sublist_nil.mp listed
  cases pairs

theorem Matched.length_le (matched : Matched fits elements partners) :
    elements.length ≤ partners.length := by
  obtain ⟨chosen, listed, pairs⟩ := matched
  exact pairs.length_eq.trans_le listed.length_le

/-- A partner that fits the first element may be given to it. -/
theorem matched_cons_of_fits (fit : fits element partner = true) :
    Matched fits (element :: elements) (partner :: partners) ↔ Matched fits elements partners := by
  constructor
  · rintro ⟨chosen, listed, pairs⟩
    obtain ⟨first, rest, -, later, rfl⟩ := List.forall₂_cons_left_iff.mp pairs
    exact ⟨rest, listed.tail, later⟩
  · rintro ⟨chosen, listed, pairs⟩
    exact ⟨partner :: chosen, listed.cons_cons partner, .cons fit pairs⟩

/-- A partner that does not fit the first element is of no use. -/
theorem matched_cons_of_not_fits (misfit : fits element partner = false) :
    Matched fits (element :: elements) (partner :: partners) ↔
      Matched fits (element :: elements) partners := by
  constructor
  · rintro ⟨chosen, listed, pairs⟩
    obtain ⟨first, rest, fit, later, rfl⟩ := List.forall₂_cons_left_iff.mp pairs
    cases listed with
    | cons _ listed => exact ⟨first :: rest, listed, pairs⟩
    | cons_cons _ _ => simp [misfit] at fit
  · rintro ⟨chosen, listed, pairs⟩
    exact ⟨chosen, listed.cons partner, pairs⟩

/-- The first partners that fit make a matching whenever there is one. -/
theorem greedy_iff_matched : greedy fits elements partners = true ↔
    Matched fits elements partners := by
  induction partners generalizing elements with
  | nil =>
      cases elements with
      | nil => simp [greedy, matched_nil]
      | cons element elements => simp [greedy, not_matched_nil]
  | cons partner partners induction =>
      cases elements with
      | nil => simp [greedy, matched_nil]
      | cons element elements =>
          cases fit : fits element partner with
          | true => rw [greedy, if_pos fit, matched_cons_of_fits fit, induction]
          | false =>
              rw [greedy, if_neg (by simp [fit]), matched_cons_of_not_fits fit, induction]

theorem greedy_of_lt (few : partners.length < elements.length) :
    greedy fits elements partners = false := by
  rw [Bool.eq_false_iff, ne_eq, greedy_iff_matched]
  exact fun matched => absurd matched.length_le (Nat.not_le.mpr few)

/-- A matching read backwards matches the reversed lists. -/
theorem matched_reverse :
    Matched fits elements.reverse partners.reverse ↔ Matched fits elements partners := by
  have forward (elements : List α) (partners : List β) (matched : Matched fits elements partners) :
      Matched fits elements.reverse partners.reverse := by
    obtain ⟨chosen, listed, pairs⟩ := matched
    exact ⟨chosen.reverse, listed.reverse, List.forall₂_reverse_iff.mpr pairs⟩
  constructor
  · intro matched
    simpa using forward _ _ matched
  · exact forward elements partners

/-- A matching assigns increasing positions. -/
theorem matched_iff_assignment : Matched fits elements partners ↔
    ∃ assignment : Fin elements.length → Fin partners.length, StrictMono assignment ∧
      ∀ i, fits (elements.get i) (partners.get (assignment i)) = true := by
  constructor
  · rintro ⟨chosen, listed, pairs⟩
    obtain ⟨place, at_place⟩ := List.sublist_iff_exists_fin_orderEmbedding_get_eq.mp listed
    obtain ⟨same_length, fit⟩ := List.forall₂_iff_get.mp pairs
    refine ⟨fun i => place (i.cast same_length), ?_, fun i => ?_⟩
    · exact place.strictMono.comp (Fin.cast_strictMono same_length)
    · rw [← at_place]
      exact fit i i.isLt (same_length ▸ i.isLt)
  · rintro ⟨assignment, increasing, fit⟩
    refine ⟨List.ofFn fun i => partners.get (assignment i), ?_, ?_⟩
    · refine List.sublist_iff_exists_fin_orderEmbedding_get_eq.mpr
        ⟨(Fin.castOrderIso (List.length_ofFn ..)).toOrderEmbedding.trans
          (OrderEmbedding.ofStrictMono assignment increasing), fun i => ?_⟩
      simp only [List.get_ofFn]
      rfl
    · refine List.forall₂_iff_get.mpr ⟨(List.length_ofFn ..).symm, fun i small _ => ?_⟩
      simpa using fit ⟨i, small⟩

end OrderedMatching
