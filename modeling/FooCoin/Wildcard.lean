import FooCoin.Base58
import Mathlib.Computability.Language
import Mathlib.Order.CompletePartialOrder

/-!
# Wildcards

`WildcardMatch` compares a text with a mask character by character; at a star it tries to go on
behind it and otherwise lets it stand for one more character.  Both arguments are C strings, so a
string that holds a zero byte is compared up to it.
-/

namespace FooCoin

/-- `WildcardMatch` of C strings. -/
def wildcardMatchPsz : List UInt8 → List UInt8 → Bool
  | psz, [] => psz.isEmpty
  | [], 42 :: mask => wildcardMatchPsz [] mask
  | c :: psz, 42 :: mask =>
      wildcardMatchPsz (c :: psz) mask || wildcardMatchPsz psz (42 :: mask)
  | [], _ :: _ => false
  | _ :: psz, 63 :: mask => wildcardMatchPsz psz mask
  | c :: psz, d :: mask => if c ≠ d then false else wildcardMatchPsz psz mask
  termination_by psz mask => psz.length + mask.length

/-- `WildcardMatch`. -/
def wildcardMatch (str mask : List UInt8) : Bool := wildcardMatchPsz (c_str str) (c_str mask)

/-- The texts of one character. -/
def anyChar : Language UInt8 := ⨆ c, {[c]}

open Computability in
/-- The texts that a character of a mask stands for. -/
def charLanguage (c : UInt8) : Language UInt8 :=
  if c = 42 then anyChar∗ else if c = 63 then anyChar else {[c]}

/-- The texts that a mask stands for. -/
def maskLanguage (mask : List UInt8) : Language UInt8 := (mask.map charLanguage).prod

section Language

variable {str mask : List UInt8} {c d : UInt8}

private theorem maskLanguage_cons (c : UInt8) (mask : List UInt8) :
    maskLanguage (c :: mask) = charLanguage c * maskLanguage mask := by
  rw [maskLanguage, List.map_cons, List.prod_cons, maskLanguage]

/-- A star stands for nothing, or for one character and another star. -/
private theorem maskLanguage_star (mask : List UInt8) :
    maskLanguage (42 :: mask) = maskLanguage mask + anyChar * maskLanguage (42 :: mask) := by
  rw [maskLanguage_cons, ← mul_assoc]
  conv_lhs => rw [charLanguage, if_pos rfl, ← Language.one_add_self_mul_kstar_eq_kstar, add_mul,
    one_mul]
  rw [charLanguage, if_pos rfl]

private theorem cons_mem_singleton_mul {language : Language UInt8} :
    d :: str ∈ {[c]} * language ↔ d = c ∧ str ∈ language := by
  rw [Language.mem_mul]
  constructor
  · rintro ⟨_, rfl, back, mem, same⟩
    obtain ⟨rfl, rfl⟩ := List.cons_eq_cons.mp same
    exact ⟨rfl, mem⟩
  · rintro ⟨rfl, mem⟩
    exact ⟨[d], rfl, str, mem, rfl⟩

private theorem cons_mem_anyChar_mul {language : Language UInt8} :
    d :: str ∈ anyChar * language ↔ str ∈ language := by
  rw [anyChar, Language.iSup_mul, Language.mem_iSup]
  simp [cons_mem_singleton_mul]

private theorem nil_notMem_char_mul {language : Language UInt8} (no_star : c ≠ 42) :
    [] ∉ charLanguage c * language := by
  have nonempty {front : List UInt8} (mem : front ∈ charLanguage c) : front ≠ [] := by
    rintro rfl
    rw [charLanguage, if_neg no_star] at mem
    split at mem
    · obtain ⟨d, mem⟩ := Language.mem_iSup.mp mem
      exact List.cons_ne_nil d [] (Eq.symm mem)
    · exact List.cons_ne_nil c [] (Eq.symm mem)
  rintro mem
  obtain ⟨front, in_front, back, -, same⟩ := Language.mem_mul.mp mem
  exact nonempty in_front (List.append_eq_nil_iff.mp same).1

end Language

/-- A C string is matched exactly if it is in the language of the mask. -/
private theorem wildcardMatchPsz_iff (psz mask : List UInt8) :
    wildcardMatchPsz psz mask = true ↔ psz ∈ maskLanguage mask := by
  fun_induction wildcardMatchPsz psz mask with
  | case1 psz => simp [maskLanguage, Language.mem_one]
  | case2 mask induction =>
      rw [induction, maskLanguage_star, Language.mem_add]
      have one (language : Language UInt8) : [] ∉ anyChar * language :=
        @nil_notMem_char_mul 63 language (by decide)
      simp [one]
  | case3 c psz mask behind longer =>
      rw [Bool.or_eq_true, behind, longer]
      conv_rhs => rw [maskLanguage_star, Language.mem_add, cons_mem_anyChar_mul]
  | case4 c mask no_star =>
      rw [maskLanguage_cons]
      simp [nil_notMem_char_mul no_star]
  | case5 c psz mask induction =>
      rw [induction, maskLanguage_cons]
      exact cons_mem_anyChar_mul.symm
  | case6 c psz d mask no_star no_any differ =>
      rw [maskLanguage_cons, charLanguage, if_neg no_star, if_neg no_any, cons_mem_singleton_mul]
      simp [differ]
  | case7 c psz d mask no_star no_any same induction =>
      rw [induction, maskLanguage_cons, charLanguage, if_neg no_star, if_neg no_any,
        cons_mem_singleton_mul, not_ne_iff.mp same]
      simp

/-- Up to its first zero byte, a string is matched exactly if it is in the language of the mask up
to its own. -/
theorem wildcardMatch_iff (str mask : List UInt8) :
    wildcardMatch str mask = true ↔ c_str str ∈ maskLanguage (c_str mask) :=
  wildcardMatchPsz_iff (c_str str) (c_str mask)

/-- What stands behind a zero byte is not compared. -/
theorem not_wildcardMatch_iff :
    ¬∀ str mask : List UInt8, wildcardMatch str mask = true ↔ str ∈ maskLanguage mask := by
  intro same
  have matched : wildcardMatch [97, 0, 98] [97] = true := by
    simp [wildcardMatch, c_str, wildcardMatchPsz]
  have mem := (same [97, 0, 98] [97]).mp matched
  rw [maskLanguage_cons, charLanguage, if_neg (by decide), if_neg (by decide),
    cons_mem_singleton_mul] at mem
  exact List.cons_ne_nil _ _ (Language.mem_one _ |>.mp mem.2)

end FooCoin
