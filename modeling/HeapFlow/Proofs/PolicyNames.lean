import HeapFlow.Policy
import HeapFlow.Proofs.Literals
import Mathlib.Data.List.TakeWhile

/-!
# Names of policies

A policy is asked for by a text and shown by its name. Many texts denote one policy: a limit may
have a plus sign and zeros in front, and `cfa` is another word for `call`. The name stands for the
policy everywhere else, so it has to denote that policy, and no two policies may share it.
-/

namespace HeapFlow

theorem Text.cutAt?_eq_some_iff {sep : Char} {s a b : List Char} :
    cutAt? sep s = some (a, b) ↔ sep ∉ a ∧ s = a ++ sep :: b := by
  unfold cutAt?
  constructor
  · intro h
    have hs := List.takeWhile_append_dropWhile (p := (· ≠ sep)) (l := s)
    cases hd : s.dropWhile (· ≠ sep) with
    | nil =>
      rw [hd] at h
      cases h
    | cons c after =>
      rw [hd] at h hs
      cases h
      have hc : c = sep := by
        have hhead := List.head?_dropWhile_not (· ≠ sep) s
        rw [hd] at hhead
        simpa using hhead
      rw [hc] at hs
      exact ⟨fun hmem => by simpa using List.mem_takeWhile_imp hmem, hs.symm⟩
  · rintro ⟨hsep, rfl⟩
    have hall : ∀ c ∈ a, decide (c ≠ sep) = true := by
      intro c hc
      exact decide_eq_true fun h => hsep (h ▸ hc)
    rw [List.dropWhile_append_of_pos hall, List.takeWhile_append_of_pos hall]
    simp

namespace Policy

/-- Names tell policies apart. -/
theorem name_injective : Function.Injective name := by
  intro c d h
  rw [← String.toList_inj] at h
  -- names of different kinds end differently
  have hlast := congrArg List.getLast? h
  cases c <;> cases d <;> simp [name] at h hlast ⊢ <;> exact Text.toDigits_injective h

/-- The policies that take a limit, with the words for them. -/
def kinds : List (String × (Nat → Policy)) :=
  [("call", call), ("cfa", call), ("obj", obj), ("type", type)]

theorem ofKind?_eq_some_iff {k : Nat} {word : String} {p : Policy} :
    ofKind? k word = some p ↔ ∃ make, (word, make) ∈ kinds ∧ make k = p := by
  unfold ofKind?
  split <;> simp_all [kinds, eq_comm]

/-- The texts that denote a policy: `ci`, or a positive limit, which ends at the first hyphen, and a
word for the kind. -/
inductive Denotes : String → Policy → Prop
  | insensitive : Denotes "ci" insensitive
  | limited {limit word : String} {k : Nat} {make : Nat → Policy} (hfirst : '-' ∉ limit.toList)
      (hlimit : Text.DenotesInt limit.toList k) (hk : 1 ≤ k) (hword : (word, make) ∈ kinds) :
      Denotes (limit ++ "-" ++ word) (make k)

variable {n : String} {p : Policy}

/-- What is accepted denotes a policy. -/
theorem denotes_of_parse (h : parse n = .ok p) : Denotes n p := by
  unfold parse at h
  split at h
  · rename_i hci
    cases h
    rw [hci]
    exact .insensitive
  split at h
  · cases h
  rename_i limit word hcut
  split at h
  · cases h
  rename_i k hread
  split at h
  · cases h
  rename_i hk
  split at h
  · rename_i hkind
    cases h
    -- a positive limit before the first hyphen, and a word for a kind behind it
    obtain ⟨hfirst, hn⟩ := Text.cutAt?_eq_some_iff.mp hcut
    obtain ⟨make, hword, rfl⟩ := ofKind?_eq_some_iff.mp hkind
    have hlimit := Text.readInt64_eq_ok_iff.mp hread
    rw [← Int.toNat_of_nonneg (show 0 ≤ k by omega)] at hlimit
    have htext : n = String.ofList limit ++ "-" ++ String.ofList word := by
      simp [← String.toList_inj, hn]
    rw [← String.toList_ofList (l := limit)] at hfirst hlimit
    rw [htext]
    exact .limited hfirst hlimit (by omega) hword
  · cases h

theorem Denotes.parse (h : Denotes n p) : parse n = .ok p := by
  cases h with
  | insensitive => exact if_pos rfl
  | @limited limit word k make hfirst hlimit hk hword =>
    have hci : limit ++ "-" ++ word ≠ "ci" := by
      intro h
      have hmem : '-' ∈ "ci".toList := by simp [← h]
      exact absurd hmem (by decide)
    have hcut : Text.cutAt? '-' (limit ++ "-" ++ word).toList = some (limit.toList, word.toList) :=
      Text.cutAt?_eq_some_iff.mpr ⟨hfirst, by simp⟩
    have hkind : ofKind? k word = some (make k) := ofKind?_eq_some_iff.mpr ⟨make, hword, rfl⟩
    rw [Policy.parse, if_neg hci, hcut]
    simp [Text.readInt64_eq_ok_iff.mpr hlimit, show k ≠ 0 by omega, hkind]

theorem parse_eq_ok_iff : Policy.parse n = .ok p ↔ Denotes n p :=
  ⟨denotes_of_parse, Denotes.parse⟩

/-- A kind with a limit has one word that is used in names. -/
theorem exists_name_eq {word : String} {make : Nat → Policy} (h : (word, make) ∈ kinds) :
    ∃ word', (word', make) ∈ kinds ∧ ∀ k, (make k).name = toString k ++ "-" ++ word' := by
  simp only [kinds, List.mem_cons, Prod.mk.injEq, List.not_mem_nil, or_false] at h
  rcases h with ⟨-, rfl⟩ | ⟨-, rfl⟩ | ⟨-, rfl⟩ | ⟨-, rfl⟩
  · exact ⟨"call", by simp [kinds], by simp [name, ← String.toList_inj]⟩
  · exact ⟨"call", by simp [kinds], by simp [name, ← String.toList_inj]⟩
  · exact ⟨"obj", by simp [kinds], by simp [name, ← String.toList_inj]⟩
  · exact ⟨"type", by simp [kinds], by simp [name, ← String.toList_inj]⟩

theorem Denotes.name (h : Denotes n p) : Denotes p.name p := by
  cases h with
  | insensitive => exact .insensitive
  | @limited _ _ k _ _ hlimit hk hword =>
    obtain ⟨word, hword, hname⟩ := exists_name_eq hword
    rw [hname]
    refine .limited ?_ ?_ hk hword
    · -- a number is written without a sign
      intro hmem
      rw [Nat.toString_eq_repr, Nat.toList_repr] at hmem
      cases (Text.isNumeral_toDigits k).2.1 _ hmem
    · exact Text.denotesInt_toString hlimit.bounds

end Policy

/-- **Names of policies are canonical.** A text is accepted as a policy exactly if it denotes that
policy; the name of an accepted policy is accepted as the same policy; and accepted texts lead to
one name exactly if kind and limit are the same. -/
theorem policy_names_canonical :
    (∀ n p, Policy.parse n = .ok p ↔ Policy.Denotes n p) ∧
    (∀ n p, Policy.parse n = .ok p → Policy.parse p.name = .ok p) ∧
    ∀ m n p q, Policy.parse m = .ok p → Policy.parse n = .ok q → (p.name = q.name ↔ p = q) := by
  refine ⟨fun _ _ => Policy.parse_eq_ok_iff, fun n p h => ?_, fun _ _ p q _ _ => ?_⟩
  · exact Policy.parse_eq_ok_iff.mpr (Policy.parse_eq_ok_iff.mp h).name
  · exact Policy.name_injective.eq_iff

theorem policy_names_canonical_seven :
    Policy.parse "+007-cfa" = .ok (.call 7) ∧ Policy.parse "7-type" = .ok (.type 7) ∧
      Policy.Denotes "+007-cfa" (.call 7) ∧ Policy.parse (Policy.call 7).name = .ok (.call 7) ∧
      (Policy.call 7).name ≠ (Policy.type 7).name := by
  have hcall : Policy.parse "+007-cfa" = .ok (.call 7) := by decide +kernel
  have htype : Policy.parse "7-type" = .ok (.type 7) := by decide +kernel
  obtain ⟨hdenotes, hname, hsame⟩ := policy_names_canonical
  refine ⟨hcall, htype, (hdenotes _ _).mp hcall, hname _ _ hcall, ?_⟩
  rw [Ne, hsame _ _ _ _ hcall htype]
  decide

end HeapFlow
