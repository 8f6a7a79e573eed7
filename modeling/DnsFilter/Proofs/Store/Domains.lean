import DnsFilter.Proofs.Store.Reachable
import Mathlib.Data.Finset.Card

/-! The domains of rules as a finite set. No domain has two rules in a store, so that there are as many
rules as domains; how many there are after a batch is counted on the sets. -/

namespace DnsFilter.Store

variable {rules : List Rule}

def domains (rules : List Rule) : Finset String := (rules.map (·.domain)).toFinset

theorem mem_domains {domain : String} : domain ∈ domains rules ↔ ∃ r ∈ rules, r.domain = domain := by
  simp [domains]

theorem domains_cons (r : Rule) : domains (r :: rules) = insert r.domain (domains rules) := by
  simp [domains]

theorem card_domains (h : (rules.map (·.domain)).Nodup) : (domains rules).card = rules.length := by
  rw [domains, List.toFinset_card_of_nodup h, List.length_map]

/-- Whichever way single rules are put into a list, a batch adds its domains. -/
theorem domains_foldl {put : List Rule → Rule → List Rule}
    (hdomains : ∀ rules r, (put rules r).map (·.domain) =
      if r.domain ∈ rules.map (·.domain) then rules.map (·.domain)
      else rules.map (·.domain) ++ [r.domain])
    (batch rules : List Rule) : domains (batch.foldl put rules) = domains rules ∪ domains batch := by
  induction batch generalizing rules with
  | nil => simp [domains]
  | cons r rest ih =>
      have hput : domains (put rules r) = insert r.domain (domains rules) := by
        ext domain
        simp only [domains, hdomains, Finset.mem_insert, List.mem_toFinset]
        split
        · rename_i hold
          constructor
          · exact Or.inr
          · rintro (rfl | hmem)
            · exact hold
            · exact hmem
        · rw [List.mem_append, List.mem_singleton, or_comm]
      rw [List.foldl_cons, ih, hput, domains_cons, Finset.insert_union, Finset.union_insert]

theorem length_foldl {put : List Rule → Rule → List Rule}
    (hdomains : ∀ rules r, (put rules r).map (·.domain) =
      if r.domain ∈ rules.map (·.domain) then rules.map (·.domain)
      else rules.map (·.domain) ++ [r.domain])
    (batch : List Rule) (h : (rules.map (·.domain)).Nodup) :
    (batch.foldl put rules).length = (domains rules ∪ domains batch).card := by
  rw [← card_domains (foldl_distinct hdomains batch h), domains_foldl hdomains]

/-- Where all domains of a batch are new and distinct, the rules that are missing are the batch. -/
theorem foldl_placeMissing_eq_append {batch : List Rule}
    (h : ((rules ++ batch).map (·.domain)).Nodup) :
    batch.foldl placeMissing rules = rules ++ batch := by
  induction batch generalizing rules with
  | nil => simp
  | cons r rest ih =>
      have hnew : (rules.any fun q => q.domain == r.domain) = false := by
        rw [List.map_append, List.nodup_append] at h
        rw [List.any_eq_false]
        intro q hq hdomain
        exact h.2.2 q.domain (List.mem_map_of_mem hq) r.domain (by simp) (beq_iff_eq.mp hdomain)
      have hplaced : placeMissing rules r = rules ++ [r] := by
        rw [placeMissing, hnew]
        rfl
      rw [List.append_cons] at h
      rw [List.foldl_cons, hplaced, ih h, ← List.append_cons]

/-- What adding missing rules answers is by how many the store has grown. -/
theorem size_of_addMissing {s next : Store} {batch : List Rule} {added : Nat}
    (h : s.addMissing batch = .ok (next, added)) : next.size = s.size + added := by
  have hwrite : s.write (.addMissing batch) = .ok next := congrArg (Except.map Prod.fst) h
  have hgrown : _ + s.size = 0 + (batch.foldl placeMissing s.rules).length :=
    snd_foldl_countMissing batch (s.rules, 0)
  obtain ⟨-, rfl, -⟩ := write_eq_ok hwrite
  rw [addMissing] at h
  rw [← count_of_settle (eq_ok_of_judged h)] at hgrown
  show (batch.foldl placeMissing s.rules).length = s.size + added
  omega

end DnsFilter.Store
