import DnsFilter.Cache.Basic
import DnsFilter.Proofs.Lookup

/-! The entries of the response cache as a finite map. The order of the list says nothing: what is
stored under a key depends on the entries up to permutation, and storing under a key is, up to
permutation, taking its old entry out and adding the new one. -/

namespace DnsFilter.Cache

variable {α : Type} {entries others : List (Key × Entry α)} {key other : Key} {e : Entry α}

/-- No key has two entries. -/
def Keyed (entries : List (Key × Entry α)) : Prop := (entries.map (·.1)).Nodup

theorem Keyed.nodup (h : Keyed entries) : entries.Nodup := List.Nodup.of_map _ h

theorem Keyed.eq_of_key_eq (h : Keyed entries) {p q : Key × Entry α} (hp : p ∈ entries)
    (hq : q ∈ entries) (hkey : p.1 = q.1) : p = q :=
  List.inj_on_of_nodup_map h hp hq hkey

theorem Keyed.filter (h : Keyed entries) (keep : Key × Entry α → Bool) :
    Keyed (entries.filter keep) :=
  List.Nodup.sublist (List.filter_sublist.map Prod.fst) h

theorem Keyed.perm (h : Keyed entries) (hperm : entries.Perm others) : Keyed others :=
  (hperm.map Prod.fst).nodup_iff.mp h

/-! ### Looking up -/

theorem mem_of_find? (h : find? entries key = some e) : (key, e) ∈ entries := by
  unfold find? at h
  obtain ⟨p, hp, rfl⟩ := Option.map_eq_some_iff.mp h
  have hkey : p.1 = key := by simpa using List.find?_some hp
  rw [← hkey]
  exact List.mem_of_find?_eq_some hp

theorem find?_eq_none_iff : find? entries key = none ↔ ∀ p ∈ entries, p.1 ≠ key := by
  simp [find?]

theorem Keyed.find?_eq_some_iff (h : Keyed entries) :
    find? entries key = some e ↔ (key, e) ∈ entries := by
  refine ⟨mem_of_find?, fun hmem => ?_⟩
  cases hfind : find? entries key with
  | none => exact absurd rfl (find?_eq_none_iff.mp hfind (key, e) hmem)
  | some e' =>
      have heq := h.eq_of_key_eq (mem_of_find? hfind) hmem rfl
      rw [(Prod.mk.inj heq).2]

theorem Keyed.find?_perm (h : Keyed entries) (hperm : entries.Perm others) :
    find? entries key = find? others key := by
  ext e
  rw [h.find?_eq_some_iff, (h.perm hperm).find?_eq_some_iff, hperm.mem_iff]

theorem Keyed.find?_filter (h : Keyed entries) (keep : Key × Entry α → Bool) :
    find? (entries.filter keep) key = (find? entries key).filter fun e => keep (key, e) := by
  ext e
  rw [(h.filter keep).find?_eq_some_iff, List.mem_filter, Option.filter_eq_some_iff,
    h.find?_eq_some_iff]

theorem find?_place (entries : List (Key × Entry α)) (key other : Key) (e : Entry α) :
    find? (place key e entries) other = if key = other then some e else find? entries other := by
  have hfound : (place key e entries).find? (fun p => p.1 == other) =
      if key = other then some (key, e) else entries.find? fun p => p.1 == other := by
    refine find?_upsert (fun _ _ => ?_) entries other
    rfl
  rw [find?, hfound]
  split <;> rfl

/-! ### Taking out and storing -/

theorem mem_without {p : Key × Entry α} : p ∈ without entries key ↔ p ∈ entries ∧ p.1 ≠ key := by
  simp [without, List.mem_filter]

theorem Keyed.without (h : Keyed entries) (key : Key) : Keyed (without entries key) :=
  h.filter _

theorem without_filter (keep : Key × Entry α → Bool) :
    without (entries.filter keep) key = (without entries key).filter keep := by
  unfold without
  rw [List.filter_filter, List.filter_filter]
  exact List.filter_congr fun _ _ => Bool.and_comm _ _

theorem without_perm (hperm : entries.Perm others) :
    (without entries key).Perm (without others key) :=
  hperm.filter _

theorem without_of_find?_eq_none (h : find? entries key = none) : without entries key = entries := by
  rw [without, List.filter_eq_self]
  intro p hp
  simpa using find?_eq_none_iff.mp h p hp

theorem Keyed.perm_cons_without (h : Keyed entries) (hmem : (key, e) ∈ entries) :
    entries.Perm ((key, e) :: Cache.without entries key) := by
  have hfresh : (key, e) ∉ Cache.without entries key := fun hin => (mem_without.mp hin).2 rfl
  have hcons : ((key, e) :: Cache.without entries key).Nodup :=
    List.nodup_cons.mpr ⟨hfresh, (h.without key).nodup⟩
  rw [List.perm_ext_iff_of_nodup h.nodup hcons]
  intro p
  rw [List.mem_cons, mem_without]
  constructor
  · intro hp
    by_cases hkey : p.1 = key
    · exact Or.inl (h.eq_of_key_eq hp hmem hkey)
    · exact Or.inr ⟨hp, hkey⟩
  · rintro (rfl | ⟨hp, -⟩)
    · exact hmem
    · exact hp

theorem Keyed.length_without (h : Keyed entries) (hmem : (key, e) ∈ entries) :
    (Cache.without entries key).length + 1 = entries.length :=
  (h.perm_cons_without hmem).length_eq.symm

theorem Keyed.place_perm (h : Keyed entries) (key : Key) (e : Entry α) :
    (place key e entries).Perm ((key, e) :: Cache.without entries key) :=
  upsert_perm h

theorem Keyed.mem_place (h : Keyed entries) {p : Key × Entry α} :
    p ∈ place key e entries ↔ p = (key, e) ∨ p ∈ entries ∧ p.1 ≠ key := by
  rw [(h.place_perm key e).mem_iff, List.mem_cons, mem_without]

theorem Keyed.place (h : Keyed entries) (key : Key) (e : Entry α) :
    Keyed (place key e entries) := by
  refine Keyed.perm ?_ (h.place_perm key e).symm
  refine List.nodup_cons.mpr ⟨?_, h.without key⟩
  intro hmem
  obtain ⟨p, hp, hkey⟩ := List.mem_map.mp hmem
  exact (mem_without.mp hp).2 hkey

/-- Storing needs one more place exactly if the key has no entry yet. -/
theorem Keyed.length_place (h : Keyed entries) :
    (Cache.place key e entries).length =
      if (find? entries key).isNone then entries.length + 1 else entries.length := by
  rw [(h.place_perm key e).length_eq, List.length_cons]
  cases hfind : find? entries key with
  | none => rw [without_of_find?_eq_none hfind]; rfl
  | some e' => exact h.length_without (mem_of_find? hfind)

end DnsFilter.Cache
