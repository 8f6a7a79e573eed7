import DnsFilter.Upsert
import Mathlib.Data.List.Nodup
import Mathlib.Data.List.Perm.Basic

/-! Looking things up by their keys in a list in which no key occurs twice. What is found there is what
is in the list, wherever it stands. Putting something in under a key changes what is found under that
key, and under no other. -/

namespace DnsFilter

variable {α κ : Type} [BEq κ] [LawfulBEq κ] {key : α → κ} {l : List α} {a : α} {k : κ}

theorem find?_key_eq_some_iff_of_unique (hunique : ∀ a ∈ l, ∀ b ∈ l, key a = key b → a = b) :
    l.find? (fun b => key b == k) = some a ↔ a ∈ l ∧ key a = k := by
  constructor
  · intro hfound
    exact ⟨List.mem_of_find?_eq_some hfound, by simpa using List.find?_some hfound⟩
  · rintro ⟨ha, rfl⟩
    cases hfind : l.find? (fun b => key b == key a) with
    | none =>
        have hnone := List.find?_eq_none.mp hfind a ha
        exact absurd (beq_self_eq_true (key a)) hnone
    | some b =>
        have hkey : key b = key a := by simpa using List.find?_some hfind
        rw [hunique b (List.mem_of_find?_eq_some hfind) a ha hkey]

theorem find?_key_eq_some_iff (h : (l.map key).Nodup) :
    l.find? (fun b => key b == k) = some a ↔ a ∈ l ∧ key a = k :=
  find?_key_eq_some_iff_of_unique fun _ ha _ hb => List.inj_on_of_nodup_map h ha hb

theorem mem_iff_find?_key (h : (l.map key).Nodup) :
    a ∈ l ↔ l.find? (fun b => key b == key a) = some a := by
  rw [find?_key_eq_some_iff h, and_iff_left rfl]

/-- A key is not found a second time where what it belongs to is left out. -/
theorem find?_key_filter (h : (l.map key).Nodup) (keep : α → Bool) (k : κ) :
    (l.filter keep).find? (fun b => key b == k) = (l.find? fun b => key b == k).filter keep := by
  have hkept : ((l.filter keep).map key).Nodup := h.sublist (List.filter_sublist.map key)
  ext a
  rw [find?_key_eq_some_iff hkept, Option.filter_eq_some_iff, find?_key_eq_some_iff h,
    List.mem_filter, and_right_comm]

/-- What has a key in a list of pairs is what the key is looked up as. -/
theorem filter_key_eq_lookup {β : Type} {l : List (κ × β)} (h : (l.map (·.1)).Nodup) (k : κ) :
    l.filter (fun p => p.1 == k) = ((l.lookup k).map (k, ·)).toList := by
  induction l with
  | nil => rfl
  | cons p l ih =>
      obtain ⟨key, b⟩ := p
      rw [List.map_cons, List.nodup_cons] at h
      rw [List.lookup_cons]
      by_cases hkey : k = key
      · subst hkey
        have hrest : l.filter (fun p => p.1 == k) = [] := by
          refine List.filter_eq_nil_iff.mpr fun p hp hpk => h.1 ?_
          exact List.mem_map.mpr ⟨p, hp, eq_of_beq hpk⟩
        simp [hrest]
      · rw [List.filter_cons_of_neg (by simpa using Ne.symm hkey), ih h.2, beq_false_of_ne hkey]

theorem mem_of_lookup {β : Type} {l : List (κ × β)} {b : β} (h : l.lookup k = some b) :
    (k, b) ∈ l := by
  induction l with
  | nil => cases h
  | cons p l ih =>
      obtain ⟨key, c⟩ := p
      rw [List.lookup_cons] at h
      by_cases hkey : k = key
      · subst hkey
        rw [beq_self_eq_true] at h
        obtain rfl := Option.some.inj h
        exact List.mem_cons_self
      · rw [beq_false_of_ne hkey] at h
        exact List.mem_cons_of_mem _ (ih h)

/-! ### Putting in under a key -/

variable [DecidableEq κ] {f : Option α → α}

theorem find?_upsert (hf : ∀ old : Option α, (∀ a ∈ old, key a = k) → key (f old) = k) (l : List α)
    (other : κ) : (upsert key k f l).find? (fun a => key a == other) =
      if k = other then some (f (l.find? fun a => key a == k))
      else l.find? fun a => key a == other := by
  induction l with
  | nil => by_cases h : k = other <;> simp [upsert, hf none nofun, h]
  | cons a rest ih =>
      rw [upsert]
      by_cases ha : key a = k
      · have hkey : key (f (some a)) = k := hf (some a) (by simpa using ha)
        rw [if_pos ha]
        by_cases h : k = other <;> simp [hkey, ha, h]
      · rw [if_neg ha, List.find?_cons, List.find?_cons, List.find?_cons, ih, beq_false_of_ne ha]
        by_cases h : key a = other
        · have hne : k ≠ other := fun heq => ha (h.trans heq.symm)
          simp [h, hne]
        · rw [beq_false_of_ne h]

theorem map_upsert (hf : ∀ old : Option α, (∀ a ∈ old, key a = k) → key (f old) = k) (l : List α) :
    (upsert key k f l).map key = if k ∈ l.map key then l.map key else l.map key ++ [k] := by
  induction l with
  | nil => simp [upsert, hf none nofun]
  | cons a rest ih =>
      rw [upsert]
      by_cases ha : key a = k
      · have hkey : key (f (some a)) = k := hf (some a) (by simpa using ha)
        simp [hkey, ha]
      · rw [if_neg ha, List.map_cons, ih, List.map_cons]
        by_cases hrest : k ∈ rest.map key <;> simp [hrest, Ne.symm ha]

theorem nodup_map_upsert (hf : ∀ old : Option α, (∀ a ∈ old, key a = k) → key (f old) = k)
    (h : (l.map key).Nodup) : ((upsert key k f l).map key).Nodup := by
  rw [map_upsert hf]
  split_ifs with hk
  · exact h
  · exact List.nodup_append.mpr ⟨h, List.nodup_singleton k, by simpa using hk⟩

theorem of_mem_upsert (h : a ∈ upsert key k f l) :
    a ∈ l ∨ a = f (l.find? fun b => key b == k) := by
  induction l with
  | nil => exact .inr (List.mem_singleton.mp h)
  | cons b rest ih =>
      rw [upsert] at h
      split_ifs at h with hb
      · rcases List.mem_cons.mp h with rfl | h
        · exact .inr (by rw [List.find?_cons, hb, beq_self_eq_true])
        · exact .inl (List.mem_cons_of_mem b h)
      · rcases List.mem_cons.mp h with rfl | h
        · exact .inl List.mem_cons_self
        · rw [List.find?_cons, beq_false_of_ne hb]
          exact (ih h).imp_left (List.mem_cons_of_mem b)

/-- What was under the key goes, and all else stays. -/
theorem upsert_perm (h : (l.map key).Nodup) : (upsert key k f l).Perm
    (f (l.find? fun a => key a == k) :: l.filter fun a => key a != k) := by
  induction l with
  | nil => exact List.Perm.refl _
  | cons a rest ih =>
      obtain ⟨hfresh, hrest⟩ := List.nodup_cons.mp h
      rw [upsert]
      by_cases ha : key a = k
      · have hrest : rest.filter (fun a => key a != k) = rest := by
          refine List.filter_eq_self.mpr fun b hb => bne_iff_ne.mpr fun hbk => hfresh ?_
          exact List.mem_map.mpr ⟨b, hb, hbk.trans ha.symm⟩
        simp [ha, hrest]
      · have hkept : (key a != k) = true := bne_iff_ne.mpr ha
        rw [if_neg ha, List.find?_cons, beq_false_of_ne ha, List.filter_cons, if_pos hkept]
        exact ((ih hrest).cons a).trans (List.Perm.swap _ _ _)

end DnsFilter
