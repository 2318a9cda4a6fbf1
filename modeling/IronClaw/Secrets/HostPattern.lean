import IronClaw.Secrets.PathScope

/-!
# Host patterns

A pattern is a host, or an asterisk and a dot before one, which matches what ends so. Hosts are
compared without case, and a pattern with a port matches its host, too.
-/

namespace IronClaw.Secrets

open Foundation (Bytes ascii)

def toAsciiLowercase (s : Bytes) : Bytes :=
  s.map fun b => if 0x41 ≤ b ∧ b ≤ 0x5A then b + 0x20 else b

def colon : UInt8 := 0x3A

def matchesWildcard (host pattern : Bytes) : Bool :=
  if (ascii "*.").isPrefixOf pattern then
    let suffix := pattern.drop 2
    if suffix.isSuffixOf host ∧ suffix.length < host.length then
      let front := host.take (host.length - suffix.length)
      front.getLast? == some dot || front.isEmpty
    else false
  else false

def hostMatchesPattern (host pattern : Bytes) : Bool :=
  let host := toAsciiLowercase host
  let pattern := toAsciiLowercase pattern
  if pattern = host then true
  else if pattern.contains colon && (pattern.splitOn colon).head? == some host then true
  else matchesWildcard host pattern

theorem matchesWildcard_iff {host pattern : Bytes} : matchesWildcard host pattern = true ↔
    ∃ sub suffix, pattern = ascii "*." ++ suffix ∧ host = sub ++ dot :: suffix := by
  rw [matchesWildcard]
  by_cases hstar : (ascii "*.").isPrefixOf pattern
  · obtain ⟨suffix, rfl⟩ := List.isPrefixOf_iff_prefix.mp hstar
    have hdrop : (ascii "*." ++ suffix).drop 2 = suffix := rfl
    rw [if_pos hstar]
    simp only [hdrop]
    -- what stands in front of the suffix is not empty, so that it has to end in a dot
    split_ifs with hends
    · obtain ⟨front, rfl⟩ := List.isSuffixOf_iff_suffix.mp hends.1
      have hfront : front ≠ [] := by
        rintro rfl
        simp at hends
      rw [List.length_append, Nat.add_sub_cancel, List.take_left,
        List.isEmpty_eq_false_iff.mpr hfront, Bool.or_false, beq_iff_eq,
        List.getLast?_eq_some_iff]
      constructor
      · rintro ⟨sub, rfl⟩
        exact ⟨sub, suffix, rfl, by simp⟩
      · rintro ⟨sub, suffix', hpattern, happend⟩
        obtain rfl := List.append_cancel_left hpattern
        have heq : front ++ suffix = sub ++ [dot] ++ suffix := by
          rw [happend, List.append_assoc]
          rfl
        exact ⟨sub, List.append_cancel_right heq⟩
    · refine iff_of_false (by simp) ?_
      rintro ⟨sub, suffix', hpattern, rfl⟩
      obtain rfl := List.append_cancel_left hpattern
      refine hends ⟨List.isSuffixOf_iff_suffix.mpr ⟨sub ++ [dot], by simp⟩, ?_⟩
      rw [List.length_append, List.length_cons]
      omega
  · rw [if_neg hstar]
    refine iff_of_false (by simp) ?_
    rintro ⟨sub, suffix, hpattern, -⟩
    exact hstar (List.isPrefixOf_iff_prefix.mpr ⟨suffix, hpattern.symm⟩)

end IronClaw.Secrets
