import Mathlib.Data.List.AList

namespace KCensus.Lib

abbrev HashMap (κ α : Type) := AList fun _ : κ => α

namespace HashMap

variable {κ α : Type} [DecidableEq κ]

def retain (f : κ → α → Bool) (m : HashMap κ α) : HashMap κ α where
  entries := m.entries.filter fun entry => f entry.1 entry.2
  nodupKeys := m.nodupKeys.sublist List.filter_sublist

def isEmpty (m : HashMap κ α) : Bool := m.entries.isEmpty

omit [DecidableEq κ] in
theorem isEmpty_iff {m : HashMap κ α} : m.isEmpty = true ↔ m = ∅ := by
  rw [isEmpty, List.isEmpty_iff]
  exact ⟨fun h => AList.ext h, fun h => h ▸ rfl⟩

omit [DecidableEq κ] in
theorem exists_mem {m : HashMap κ α} (h : m.isEmpty = false) : ∃ k, k ∈ m := by
  rw [isEmpty, List.isEmpty_eq_false_iff_exists_mem] at h
  obtain ⟨entry, hentry⟩ := h
  exact ⟨entry.1, AList.mem_keys.2 (List.mem_map_of_mem hentry)⟩

theorem lookup_retain {f : κ → α → Bool} {m : HashMap κ α} {k : κ} {a : α} :
    (m.retain f).lookup k = some a ↔ m.lookup k = some a ∧ f k a = true := by
  have h := @AList.mem_lookup_iff κ (fun _ => α) _ k a
  simp only [Option.mem_def] at h
  rw [h, h]
  simp [retain]

theorem exists_lookup {m : HashMap κ α} {k : κ} (h : k ∈ m) : ∃ a, m.lookup k = some a :=
  Option.isSome_iff_exists.1 (AList.lookup_isSome.2 h)

theorem mem_of_lookup {m : HashMap κ α} {k : κ} {a : α} (h : m.lookup k = some a) : k ∈ m :=
  AList.lookup_isSome.1 (h ▸ rfl)

end HashMap

end KCensus.Lib
