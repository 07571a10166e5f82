import Mathlib.Data.List.Nodup
import Mathlib.Data.List.TakeWhile

namespace KCensus.Lib

variable {α ι : Type*} {f : ι → List α} {key : α → ι}

-- Lists put together group by group: every element of `f i` has the key `i`.
theorem filter_flatMap_key [DecidableEq ι] (hkey : ∀ i, ∀ a ∈ f i, key a = i) {is : List ι}
    (hnodup : is.Nodup) (i : ι) :
    (is.flatMap f).filter (key · = i) = if i ∈ is then f i else [] := by
  induction is with
  | nil => rfl
  | cons j is ih =>
      obtain ⟨hj, hnodup⟩ := List.nodup_cons.mp hnodup
      rw [List.flatMap_cons, List.filter_append, ih hnodup]
      rcases eq_or_ne i j with rfl | hne
      · rw [List.filter_eq_self.mpr fun a ha => decide_eq_true (hkey i a ha)]
        simp [hj]
      · rw [List.filter_eq_nil_iff.mpr fun a ha => by
          rw [hkey j a ha]
          simpa using hne.symm]
        simp [hne]

theorem nodup_flatMap_key (hkey : ∀ i, ∀ a ∈ f i, key a = i) (hf : ∀ i, (f i).Nodup) {is : List ι}
    (hnodup : is.Nodup) : (is.flatMap f).Nodup := by
  refine List.nodup_flatMap.mpr ⟨fun i _ => hf i, ?_⟩
  refine hnodup.imp fun hne a ha ha' => hne ?_
  exact (hkey _ a ha).symm.trans (hkey _ a ha')

theorem flatMap_filter_perm [DecidableEq ι] (key : α → ι) (l : List α) {is : List ι}
    (hnodup : is.Nodup) :
    (is.flatMap fun i => l.filter (key · = i)).Perm (l.filter (key · ∈ is)) := by
  induction is with
  | nil => simp
  | cons i is ih =>
      obtain ⟨hi, hnodup⟩ := List.nodup_cons.mp hnodup
      have hsplit := List.filter_append_perm (fun a => decide (key a = i))
        (l.filter (key · ∈ i :: is))
      have hhead : (l.filter (key · ∈ i :: is)).filter (key · = i) = l.filter (key · = i) := by
        rw [List.filter_filter]
        exact List.filter_congr fun a _ => by simp +contextual
      have htail : (l.filter (key · ∈ i :: is)).filter (fun a => !decide (key a = i)) =
          l.filter (key · ∈ is) := by
        rw [List.filter_filter]
        refine List.filter_congr fun a _ => ?_
        rcases eq_or_ne (key a) i with heq | hne
        · simp [heq, hi]
        · simp [hne]
      rw [hhead, htail] at hsplit
      rw [List.flatMap_cons]
      exact ((ih hnodup).append_left _).trans hsplit

variable {p : α → Bool} {l : List α}

-- A list whose elements with `p` all come first falls into two runs.
theorem takeWhile_eq_filter (h : l.Pairwise fun a b => p b → p a) : l.takeWhile p = l.filter p := by
  induction l with
  | nil => rfl
  | cons a l ih =>
      obtain ⟨ha, h⟩ := List.pairwise_cons.mp h
      cases hp : p a with
      | true => rw [List.takeWhile_cons_of_pos hp, List.filter_cons_of_pos hp, ih h]
      | false =>
          have hnone : ∀ b ∈ a :: l, ¬p b := by
            intro b hb
            rcases List.mem_cons.mp hb with rfl | hb
            · simp [hp]
            · exact fun hpb => by simp [ha b hb hpb] at hp
          rw [List.takeWhile_cons_of_neg (by simp [hp]), List.filter_eq_nil_iff.mpr hnone]

theorem take_run (h : l.Pairwise fun a b => p b → p a) :
    l.take (l.takeWhile p).length = l.filter p := by
  rw [← takeWhile_eq_filter h]
  exact (List.prefix_iff_eq_take.mp (List.takeWhile_prefix p)).symm

theorem dropWhile_eq_filter (h : l.Pairwise fun a b => p b → p a) :
    l.dropWhile p = l.filter (!p ·) := by
  induction l with
  | nil => rfl
  | cons a l ih =>
      obtain ⟨ha, h⟩ := List.pairwise_cons.mp h
      cases hp : p a with
      | true => rw [List.dropWhile_cons_of_pos hp, List.filter_cons_of_neg (by simp [hp]), ih h]
      | false =>
          have hall : ∀ b ∈ a :: l, !p b := by
            intro b hb
            rcases List.mem_cons.mp hb with rfl | hb
            · simp [hp]
            · by_contra hpb
              simp [ha b hb (by simpa using hpb)] at hp
          rw [List.dropWhile_cons_of_neg (by simp [hp]), List.filter_eq_self.mpr hall]

theorem drop_run (h : l.Pairwise fun a b => p b → p a) :
    l.drop (l.takeWhile p).length = l.filter (!p ·) := by
  have hsplit : l.takeWhile p ++ l.filter (!p ·) = l := by
    rw [← dropWhile_eq_filter h]
    exact List.takeWhile_append_dropWhile
  calc l.drop (l.takeWhile p).length
      = (l.takeWhile p ++ l.filter (!p ·)).drop (l.takeWhile p).length := by rw [hsplit]
    _ = l.filter (!p ·) := List.drop_left

end KCensus.Lib
