import DnsFilter.Proofs.Precedence.Order
import DnsFilter.Proofs.Stats.History
import DnsFilter.Proofs.Text.Bytes

/-! The names asked for most. Two counters of different names never rank alike, so that there is one
order of them, however they are stored, and a list of the first ones is the beginning of every longer
one. -/

namespace DnsFilter

namespace QueryCounter

variable {a b : QueryCounter}

/-- Whether a counter ranks before another one: it has more queries; or as many, and the latest of them
was later; or this is the same as well, and the bytes of its name go first. -/
def RanksBefore (a b : QueryCounter) : Prop :=
  b.count < a.count ∨ a.count = b.count ∧
    (b.lastQueried < a.lastQueried ∨ a.lastQueried = b.lastQueried ∧
      Text.bytes a.domain < Text.bytes b.domain)

instance : Std.TransCmp comparison :=
  inferInstanceAs (Std.TransCmp (compareLex (fun a b => compareOn count b a)
    (compareLex (fun a b => compareOn lastQueried b a) (compareOn domain))))

theorem comparison_eq_lt_iff : a.comparison b = .lt ↔ a.RanksBefore b := by
  rw [comparison, Ordering.then_eq_lt, Ordering.then_eq_lt, compare_lt_iff_lt, compare_lt_iff_lt,
    compare_eq_iff_eq, compare_eq_iff_eq, Precedence.compareText_eq_lt_iff, RanksBefore,
    eq_comm (a := b.count), eq_comm (a := b.lastQueried)]

theorem domain_eq_of_comparison_eq (h : a.comparison b = .eq) : a.domain = b.domain := by
  rw [comparison, Ordering.then_eq_eq, Ordering.then_eq_eq] at h
  exact Precedence.compareText_eq_eq_iff.mp h.2.2

theorem comparison_total (a b : QueryCounter) :
    ((a.comparison b).isLE || (b.comparison a).isLE) = true := by
  have hswap : b.comparison a = (a.comparison b).swap := Std.OrientedCmp.eq_swap
  rw [hswap]
  cases a.comparison b <;> rfl

theorem ranksBefore_of_isLE (h : (a.comparison b).isLE = true) (hne : a.domain ≠ b.domain) :
    a.RanksBefore b := by
  rw [← comparison_eq_lt_iff]
  cases hab : a.comparison b with
  | lt => rfl
  | eq => exact absurd (domain_eq_of_comparison_eq hab) hne
  | gt => rw [hab] at h; cases h

theorem not_ranksBefore_of_ranksBefore (h : a.RanksBefore b) : ¬ b.RanksBefore a := by
  rw [← comparison_eq_lt_iff] at h ⊢
  have hswap : b.comparison a = (a.comparison b).swap := Std.OrientedCmp.eq_swap
  rw [hswap, h]
  decide

end QueryCounter

namespace QueryStats

open QueryCounter (RanksBefore)

variable {stats : QueryStats} {c b : QueryCounter} {listed : List QueryCounter}

/-- All counters in order. -/
def ranked (counters : List QueryCounter) : List QueryCounter :=
  counters.mergeSort fun a b => (a.comparison b).isLE

theorem ranked_perm (counters : List QueryCounter) : (ranked counters).Perm counters :=
  List.mergeSort_perm counters _

theorem top_eq (stats : QueryStats) (limit : Nat) :
    stats.top limit = (ranked stats.counters).take limit := rfl

theorem Distinct.ranked (h : stats.Distinct) :
    ((ranked stats.counters).map (·.domain)).Nodup :=
  ((ranked_perm stats.counters).map _).nodup_iff.mpr h

theorem Distinct.pairwise_ranked (h : stats.Distinct) :
    (QueryStats.ranked stats.counters).Pairwise RanksBefore := by
  have hsorted : (QueryStats.ranked stats.counters).Pairwise fun a b => (a.comparison b).isLE = true :=
    List.pairwise_mergeSort (fun _ _ _ => Std.TransCmp.isLE_trans) QueryCounter.comparison_total _
  exact hsorted.imp₂ (fun _ _ => QueryCounter.ranksBefore_of_isLE) (List.pairwise_map.mp h.ranked)

/-- However the counters are listed, their order is the same. -/
theorem Distinct.ranked_eq (h : stats.Distinct) (hperm : listed.Perm stats.counters) :
    QueryStats.ranked listed = QueryStats.ranked stats.counters := by
  have hlisted : (⟨listed⟩ : QueryStats).Distinct := (hperm.map _).nodup_iff.mpr h
  refine List.Perm.eq_of_pairwise ?_ hlisted.pairwise_ranked h.pairwise_ranked ?_
  · intro a b _ _ hab hba
    exact absurd hba (QueryCounter.not_ranksBefore_of_ranksBefore hab)
  · exact (ranked_perm listed).trans (hperm.trans (ranked_perm stats.counters).symm)

theorem Distinct.counter?_of_mem_top (h : stats.Distinct) {limit : Nat}
    (hc : c ∈ stats.top limit) : stats.counter? c.domain = some c := by
  rw [h.counter?_eq_some_iff]
  exact ⟨(ranked_perm stats.counters).mem_iff.mp (List.mem_of_mem_take hc), rfl⟩

/-- A counter that is left out ranks behind all that are listed. -/
theorem Distinct.ranksBefore_of_omitted (h : stats.Distinct) {limit : Nat} {domain : String}
    (hc : stats.counter? domain = some c) (homitted : c ∉ stats.top limit)
    (hb : b ∈ stats.top limit) : b.RanksBefore c := by
  have hpairwise := h.pairwise_ranked
  rw [← List.take_append_drop limit (QueryStats.ranked stats.counters), List.pairwise_append]
    at hpairwise
  have hmem : c ∈ QueryStats.ranked stats.counters :=
    (ranked_perm stats.counters).mem_iff.mpr (h.counter?_eq_some_iff.mp hc).1
  rw [← List.take_append_drop limit (QueryStats.ranked stats.counters), List.mem_append] at hmem
  exact hpairwise.2.2 b hb c (hmem.resolve_left homitted)

/-- Of the counters after any history the first ones are listed, as many as are asked for or as there are:
counters of different names as they stand, each ranking before those behind it, and all before every
counter that is left out. A shorter list is the beginning of a longer one, and the counters give the same
lists in whatever order they are stored. -/
theorem top_lists_first (calls : List Call) :
    (∀ limit,
      ((run calls).top limit).length = min limit (run calls).counters.length ∧
      (((run calls).top limit).map (·.domain)).Nodup ∧
      (∀ c ∈ (run calls).top limit, (run calls).counter? c.domain = some c) ∧
      ((run calls).top limit).Pairwise RanksBefore ∧
      ∀ domain c, (run calls).counter? domain = some c → c ∉ (run calls).top limit →
        ∀ b ∈ (run calls).top limit, b.RanksBefore c) ∧
    (∀ k m, k ≤ m → (run calls).top k <+: (run calls).top m) ∧
    ∀ listed, listed.Perm (run calls).counters →
      ∀ limit, (⟨listed⟩ : QueryStats).top limit = (run calls).top limit := by
  have hdistinct := distinct_run calls
  refine ⟨fun limit => ⟨?_, ?_, ?_, ?_, ?_⟩, ?_, ?_⟩
  · rw [top_eq, List.length_take, (ranked_perm _).length_eq]
  · exact hdistinct.ranked.sublist ((List.take_sublist limit _).map _)
  · exact fun c hc => hdistinct.counter?_of_mem_top hc
  · exact hdistinct.pairwise_ranked.sublist (List.take_sublist limit _)
  · exact fun domain c hc homitted b hb => hdistinct.ranksBefore_of_omitted hc homitted hb
  · exact fun k m hkm => List.take_prefix_take_left hkm
  · intro listed hperm limit
    rw [top_eq, top_eq, hdistinct.ranked_eq hperm]

end QueryStats

end DnsFilter
