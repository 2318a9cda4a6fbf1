import IronClaw.Foundation.Text

/-!
# Texts by their bytes

Offsets into a text are in bytes, and may lie inside a character. Those that do not are the lengths
of what precedes them.
-/

namespace IronClaw.Foundation.Text

variable {front mid rest s : Text} {n : Nat}

@[simp] theorem byteLength_nil : byteLength [] = 0 := rfl

theorem byteLength_cons (c : Char) (s : Text) :
    byteLength (c :: s) = c.utf8Size + byteLength s := rfl

theorem byteLength_append (s t : Text) : byteLength (s ++ t) = byteLength s + byteLength t := by
  simp [byteLength]

theorem byteLength_le (s : Text) : byteLength s ≤ 4 * s.length := by
  induction s with
  | nil => exact Nat.le_refl 0
  | cons c s ih =>
    have hsize := c.utf8Size_le_four
    rw [byteLength_cons, List.length_cons]
    omega

theorem byteLength_pos (h : s ≠ []) : 0 < byteLength s := by
  obtain ⟨c, s, rfl⟩ := List.exists_cons_of_ne_nil h
  have hsize := c.utf8Size_pos
  rw [byteLength_cons]
  omega

theorem byteLength_replicate (n : Nat) (c : Char) :
    byteLength (List.replicate n c) = n * c.utf8Size := by
  induction n with
  | zero => rw [List.replicate_zero, byteLength_nil, Nat.zero_mul]
  | succ n ih => rw [List.replicate_succ, byteLength_cons, ih, Nat.succ_mul, Nat.add_comm]

theorem byteLength_of_ascii (h : ∀ c ∈ front, c.toNat < 128) : byteLength front = front.length := by
  induction front with
  | nil => rfl
  | cons c front ih =>
    obtain ⟨hc, hfront⟩ := List.forall_mem_cons.mp h
    have hsize : c.utf8Size = 1 := by
      rw [Char.utf8Size_eq_one_iff, UInt32.le_iff_toNat_le]
      exact Nat.lt_succ_iff.mp hc
    rw [byteLength_cons, hsize, ih hfront, List.length_cons, Nat.add_comm]

@[simp] theorem dropBytes_zero (s : Text) : dropBytes 0 s = some s := by
  rw [dropBytes]

theorem dropBytes_append (front rest : Text) (n : Nat) :
    dropBytes (byteLength front + n) (front ++ rest) = dropBytes n rest := by
  induction front with
  | nil =>
    rw [byteLength_nil, Nat.zero_add]
    rfl
  | cons c front ih =>
    have hlength : byteLength (c :: front) + n = byteLength front + n + c.utf8Size := by
      rw [byteLength_cons]
      omega
    obtain ⟨m, hm⟩ : ∃ m, byteLength front + n + c.utf8Size = m + 1 := by
      have hpos := c.utf8Size_pos
      exact ⟨byteLength front + n + c.utf8Size - 1, by omega⟩
    rw [hlength, hm, List.cons_append, dropBytes, if_pos (by omega), ← hm, Nat.add_sub_cancel, ih]

theorem dropBytes_byteLength (front rest : Text) :
    dropBytes (byteLength front) (front ++ rest) = some rest := by
  have hdrop := dropBytes_append front rest 0
  rwa [Nat.add_zero, dropBytes_zero] at hdrop

theorem dropBytes_of_ascii (h : ∀ c ∈ front, c.toNat < 128) (rest : Text) :
    dropBytes front.length (front ++ rest) = some rest := by
  rw [← byteLength_of_ascii h]
  exact dropBytes_byteLength front rest

theorem exists_of_dropBytes (h : dropBytes n s = some rest) :
    ∃ front, s = front ++ rest ∧ n = byteLength front := by
  induction s generalizing n with
  | nil =>
    cases n with
    | zero => exact ⟨[], Option.some.inj h, rfl⟩
    | succ n => cases h
  | cons c s ih =>
    cases n with
    | zero => exact ⟨[], Option.some.inj h, rfl⟩
    | succ n =>
      rw [dropBytes] at h
      split_ifs at h with hc
      obtain ⟨front, rfl, hn⟩ := ih h
      refine ⟨c :: front, rfl, ?_⟩
      rw [byteLength_cons]
      omega

/-- The text between two offsets, unless one of them is inside a character. -/
def getRange? (start stop : Nat) (s : Text) : Option Text := do
  let rest ← dropBytes start s
  if start ≤ stop then
    let after ← dropBytes (stop - start) rest
    some (rest.take (rest.length - after.length))
  else none

theorem getRange?_append (front mid rest : Text) :
    getRange? (byteLength front) (byteLength (front ++ mid)) (front ++ mid ++ rest) = some mid := by
  have hlength : byteLength (front ++ mid) - byteLength front = byteLength mid := by
    rw [byteLength_append]
    omega
  have htake : (mid ++ rest).length - rest.length = mid.length := by
    rw [List.length_append]
    omega
  rw [getRange?, List.append_assoc, dropBytes_byteLength, Option.bind_eq_bind, Option.bind_some,
    if_pos (by rw [byteLength_append]; omega), hlength, dropBytes_byteLength, Option.bind_some,
    htake, List.take_left]

theorem exists_of_getRange? {start stop : Nat} (h : getRange? start stop s = some mid) :
    ∃ front rest, s = front ++ mid ++ rest ∧ start = byteLength front ∧
      stop = byteLength (front ++ mid) := by
  rw [getRange?] at h
  obtain ⟨rest, hrest, hbehind⟩ := Option.bind_eq_some_iff.mp h
  clear h
  split_ifs at hbehind with hle
  obtain ⟨after, hafter, hmid⟩ := Option.bind_eq_some_iff.mp hbehind
  clear hbehind
  obtain ⟨front, rfl, rfl⟩ := exists_of_dropBytes hrest
  obtain ⟨mid', rfl, hstop⟩ := exists_of_dropBytes hafter
  have hlength : (mid' ++ after).length - after.length = mid'.length := by
    rw [List.length_append, Nat.add_sub_cancel]
  rw [hlength, List.take_left] at hmid
  cases hmid
  refine ⟨front, after, (List.append_assoc _ _ _).symm, rfl, ?_⟩
  rw [byteLength_append]
  omega

theorem exists_of_append_eq {front' rest' : Text} (h : front ++ rest = front' ++ rest')
    (hle : byteLength front ≤ byteLength front') :
    ∃ mid, front' = front ++ mid ∧ rest = mid ++ rest' := by
  rcases List.append_eq_append_iff.mp h with ⟨mid, hfront, hrest⟩ | ⟨mid, rfl, rfl⟩
  · exact ⟨mid, hfront, hrest⟩
  · have hmid : mid = [] := by
      by_contra hne
      have hpos := byteLength_pos hne
      rw [byteLength_append] at hle
      omega
    rw [hmid]
    exact ⟨[], by rw [List.append_nil, List.append_nil], rfl⟩

theorem append_inj_of_byteLength {front' rest' : Text} (h : front ++ rest = front' ++ rest')
    (hlength : byteLength front = byteLength front') : front = front' ∧ rest = rest' := by
  have hrest := dropBytes_byteLength front' rest'
  rw [← h, ← hlength, dropBytes_byteLength] at hrest
  cases hrest
  exact ⟨List.append_cancel_right h, rfl⟩

end IronClaw.Foundation.Text
