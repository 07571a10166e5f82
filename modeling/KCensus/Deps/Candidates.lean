import KCensus.Deps.Execution

namespace KCensus.Deps

variable {n : Nat} [NeZero n]

theorem requesterOf_skipExecuted (e : Executed n) (fuel : Nat) (uid : Uid) :
    requesterOf n (skipExecuted e fuel uid) = requesterOf n uid ∧
      indexOf n uid ≤ indexOf n (skipExecuted e fuel uid) := by
  induction fuel generalizing uid with
  | zero => exact ⟨rfl, Nat.le_refl _⟩
  | succ fuel ih =>
    rw [skipExecuted]
    split
    · obtain ⟨hr, hi⟩ := ih (uid.add n)
      rw [requesterOf_add] at hr
      rw [indexOf_add] at hi
      exact ⟨hr, by omega⟩
    · exact ⟨rfl, Nat.le_refl _⟩

theorem skipExecuted_from (e : Executed n) (r : Fin n) (fuel i : Nat) :
    ∃ j, i ≤ j ∧ skipExecuted e fuel (uidAt i r) = uidAt j r ∧
      (∀ k, i ≤ k → k < j → e.contains (uidAt k r)) ∧
      (¬ e.contains (uidAt j r) ∨ j = i + fuel) := by
  induction fuel generalizing i with
  | zero => exact ⟨i, Nat.le_refl i, rfl, by omega, Or.inr rfl⟩
  | succ fuel ih =>
    rw [skipExecuted]
    split
    · rename_i hc
      obtain ⟨j, hij, hskip, hbelow, hend⟩ := ih (i + 1)
      refine ⟨j, by omega, by rw [uidAt_add, hskip], fun k hik hkj => ?_, ?_⟩
      · rcases Nat.eq_or_lt_of_le hik with rfl | hik
        · exact hc
        · exact hbelow k hik hkj
      · exact hend.imp_right fun h => by omega
    · rename_i hc
      exact ⟨i, Nat.le_refl i, rfl, by omega, Or.inl hc⟩

theorem skipExecuted_spec (e : Executed n) (r : Fin n) {i : Nat} (hi : e.watermark.marks r ≤ i) :
    ∃ j, i ≤ j ∧ skipExecuted e (e.ahead.card + 1) (uidAt i r) = uidAt j r ∧
      (∀ k, i ≤ k → k < j → e.contains (uidAt k r)) ∧ ¬ e.contains (uidAt j r) := by
  obtain ⟨j, hij, hskip, hbelow, hend⟩ := skipExecuted_from e r (e.ahead.card + 1) i
  refine ⟨j, hij, hskip, hbelow, hend.resolve_right fun hj => ?_⟩
  have hsub : (Finset.range (e.ahead.card + 1)).image (fun k => uidAt (i + k) r) ⊆ e.ahead := by
    intro v hv
    obtain ⟨k, hk, rfl⟩ := Finset.mem_image.1 hv
    have hlt := Finset.mem_range.1 hk
    rcases hbelow (i + k) (by omega) (by omega) with h | h
    · rw [DepSet.contains_uidAt] at h
      omega
    · exact h
  have hcard := Finset.card_le_card hsub
  rw [Finset.card_image_of_injective _ fun a b hab => by
    have := (uidAt_inj.1 hab).1
    omega, Finset.card_range] at hcard
  omega

namespace InstanceTable

theorem committedAt_lt {t : InstanceTable n} {uid : Uid} (h : t.committedAt uid = true) :
    indexOf n (t.front (requesterOf n uid)) ≤ indexOf n uid ∧
      indexOf n uid < indexOf n (t.front (requesterOf n uid)) +
        (t.logs (requesterOf n uid)).length := by
  obtain ⟨i, hi, -⟩ := (committedAt_iff t uid).1 h
  rw [get_eq] at hi
  split at hi
  · rename_i hle
    refine ⟨hle, ?_⟩
    obtain ⟨hlt, -⟩ := List.getElem?_eq_some_iff.1 (Option.join_eq_some_iff.1 hi)
    omega
  · cases hi

end InstanceTable

open InstanceTable

variable {t : InstanceTable n}

theorem candidatesFrom_succ (e : Executed n) {fuel : Nat} {uid : Uid}
    (h : indexOf n (t.front (requesterOf n uid)) + (t.logs (requesterOf n uid)).length <
      fuel + max (indexOf n uid) (indexOf n (t.front (requesterOf n uid)))) :
    candidatesFrom t e (fuel + 1) uid = candidatesFrom t e fuel uid := by
  induction fuel generalizing uid with
  | zero =>
    have hskip := requesterOf_skipExecuted e (e.ahead.card + 1) uid
    simp only [candidatesFrom]
    cases hc : t.committedAt (skipExecuted e (e.ahead.card + 1) uid) with
    | false => simp
    | true =>
      have hb := committedAt_lt hc
      rw [hskip.1] at hb
      omega
  | succ fuel ih =>
    conv_lhs => rw [candidatesFrom]
    conv_rhs => rw [candidatesFrom]
    have hskip := requesterOf_skipExecuted e (e.ahead.card + 1) uid
    cases hc : t.committedAt (skipExecuted e (e.ahead.card + 1) uid) with
    | false => simp
    | true =>
      have hb := committedAt_lt hc
      rw [hskip.1] at hb
      simp only [if_true]
      rw [ih]
      rw [requesterOf_add, indexOf_add, hskip.1]
      omega

theorem candidatesFrom_enough (e : Executed n) {uid : Uid} {r : Fin n} (hr : requesterOf n uid = r)
    (extra : Nat) :
    candidatesFrom t e ((t.logs r).length + 1 + extra) uid =
      candidatesFrom t e ((t.logs r).length + 1) uid := by
  induction extra with
  | zero => rfl
  | succ extra ih =>
    rw [← ih, ← Nat.add_assoc, candidatesFrom_succ]
    rw [hr]
    omega

theorem of_mem_candidatesFrom {e : Executed n} {r : Fin n} (fuel : Nat) {i : Nat}
    (hi : e.watermark.marks r ≤ i) {v : Uid} (h : v ∈ candidatesFrom t e fuel (uidAt i r)) :
    ∃ k, i ≤ k ∧ v = uidAt k r ∧ ¬ e.contains v ∧
      ∀ l, i ≤ l → l ≤ k → e.contains (uidAt l r) ∨ t.committedAt (uidAt l r) = true := by
  induction fuel generalizing i with
  | zero => simp [candidatesFrom] at h
  | succ fuel ih =>
    obtain ⟨j, hij, hskip, hbelow, hn⟩ := skipExecuted_spec e r hi
    simp only [candidatesFrom, hskip] at h
    split at h
    · rename_i hc
      have hupto : ∀ l, i ≤ l → l ≤ j →
          e.contains (uidAt l r) ∨ t.committedAt (uidAt l r) = true := by
        intro l hil hlj
        rcases Nat.eq_or_lt_of_le hlj with rfl | hlj
        · exact Or.inr hc
        · exact Or.inl (hbelow l hil hlj)
      rcases List.mem_cons.1 h with rfl | h
      · exact ⟨j, hij, rfl, hn, hupto⟩
      · rw [uidAt_add] at h
        obtain ⟨k, hjk, rfl, hnk, hall⟩ := ih (by omega) h
        refine ⟨k, by omega, rfl, hnk, fun l hil hlk => ?_⟩
        rcases Nat.lt_or_ge j l with hjl | hlj
        · exact hall l hjl hlk
        · exact hupto l hil hlj
    · cases h

theorem mem_candidatesFrom {e : Executed n} {r : Fin n} (fuel : Nat) {i k : Nat}
    (hi : e.watermark.marks r ≤ i) (hik : i ≤ k) (hfuel : k < i + fuel)
    (hn : ¬ e.contains (uidAt k r))
    (hall : ∀ l, i ≤ l → l ≤ k → e.contains (uidAt l r) ∨ t.committedAt (uidAt l r) = true) :
    uidAt k r ∈ candidatesFrom t e fuel (uidAt i r) := by
  induction fuel generalizing i with
  | zero => omega
  | succ fuel ih =>
    obtain ⟨j, hij, hskip, hbelow, hnj⟩ := skipExecuted_spec e r hi
    have hjk : j ≤ k := by
      by_contra hkj
      exact hn (hbelow k hik (by omega))
    have hc : t.committedAt (uidAt j r) = true := (hall j hij hjk).resolve_left hnj
    simp only [candidatesFrom, hskip, hc, if_true, uidAt_add]
    rcases Nat.eq_or_lt_of_le hjk with rfl | hlt
    · exact List.mem_cons_self
    · exact List.mem_cons_of_mem _ (ih (by omega) hlt (by omega) fun l hl => hall l (by omega))

theorem mem_candidates {e : Executed n} {uid : Uid} :
    uid ∈ candidates t e ↔ ¬ e.contains uid ∧
      ∀ v, requesterOf n v = requesterOf n uid → indexOf n v ≤ indexOf n uid →
        e.contains v ∨ t.committedAt v = true := by
  constructor
  · intro h
    obtain ⟨r, -, hr⟩ := List.mem_flatMap.1 h
    obtain ⟨k, -, rfl, hn, hall⟩ := of_mem_candidatesFrom _ (Nat.le_refl _) hr
    refine ⟨hn, fun v hv hle => ?_⟩
    rw [requesterOf_uidAt] at hv
    rw [indexOf_uidAt] at hle
    rcases Nat.lt_or_ge (indexOf n v) (e.watermark.marks r) with hlt | hge
    · exact Or.inl (Or.inl (by rwa [DepSet.contains_iff, hv]))
    · have := hall (indexOf n v) hge hle
      rwa [← hv, uidAt_indexOf] at this
  · rintro ⟨hn, hall⟩
    have hge : e.watermark.marks (requesterOf n uid) ≤ indexOf n uid := by
      by_contra hlt
      exact hn (Or.inl (Nat.not_le.1 hlt))
    have hmem := mem_candidatesFrom (t := t) (indexOf n uid + 1 + (t.logs (requesterOf n uid)).length)
      (Nat.le_refl _) hge (by omega) (by rwa [uidAt_indexOf])
      fun l _ hl => hall (uidAt l _) (requesterOf_uidAt _ _) (by rwa [indexOf_uidAt])
    rw [uidAt_indexOf, show indexOf n uid + 1 + (t.logs (requesterOf n uid)).length =
      (t.logs (requesterOf n uid)).length + 1 + indexOf n uid by omega,
      candidatesFrom_enough e (requesterOf_uidAt _ _)] at hmem
    exact List.mem_flatMap.2 ⟨requesterOf n uid, List.mem_finRange _, hmem⟩

end KCensus.Deps
