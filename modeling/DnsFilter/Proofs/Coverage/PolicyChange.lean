import DnsFilter.Proofs.Config.PolicyFile
import DnsFilter.Proofs.Coverage.Capacity

/-! Changes of policy, step by step. A change does three things, one after the other, of which two can
fail: the new policy is put in force, a pass is made under the policy that is then in force, and the new
policy is saved. A refused pass is passed over, a failed saving is told, and nothing is taken back in
either case. -/

namespace DnsFilter

open Coverage

/-! ### Passes that may fail -/

namespace Coverage

variable {order : Listing} {refuse? : Store → List Rule → Option Fault} {s next : Store}
  {policy : WildcardPolicy} {now : Instant} {outcome : Outcome} {q : Rule}

/-- What goes through there goes through in the store in memory. -/
theorem pass_of_unreliable (h : pass (order.unreliable refuse?) s policy now = .ok (next, outcome)) :
    pass order.keeper s policy now = .ok (next, outcome) := by
  simp only [pass_eq, Listing.unreliable, Listing.keeper, Store.keeper] at h ⊢
  generalize plan policy now (order.list s.rules) = p at h ⊢
  cases hrefuse : refuse? s p.batch with
  | none => simpa only [hrefuse] using h
  | some cause =>
      by_cases hempty : p.batch.isEmpty = true
      · rwa [if_pos hempty] at h ⊢
      · rw [if_neg hempty, hrefuse] at h
        cases h

theorem mem_next_iff (hs : s.Reachable) (h : pass order.keeper s policy now = .ok (next, outcome)) :
    q ∈ next.rules ↔ q ∈ s.rules ∨ policy.mode ≠ .subdomainsOnly ∧
      ∃ w root, s.IsDue policy now w root ∧ q = rootRule w root now := by
  by_cases hmode : policy.mode = .subdomainsOnly
  · rw [next_eq_of_subdomainsOnly h hmode]
    simp [hmode]
  · rw [mem_pass_iff hs h hmode, and_iff_right hmode]

/-- A pass leaves the old rules, or what the store in memory makes of them. -/
theorem passOrKeep_unreliable :
    passOrKeep (order.unreliable refuse?) s policy now = s ∨
      ∃ outcome, pass order.keeper s policy now =
        .ok (passOrKeep (order.unreliable refuse?) s policy now, outcome) := by
  unfold passOrKeep
  cases hpass : pass (order.unreliable refuse?) s policy now with
  | error cause => exact .inl rfl
  | ok answer => exact .inr ⟨answer.2, pass_of_unreliable hpass⟩

end Coverage

/-! ### The steps of a change -/

namespace PolicyState

variable {σ τ : Type} {k : Keeper σ} {save : WildcardPolicy → StateM τ (Except Fault Unit)}

theorem run_cover (k : Keeper σ) (now : Instant) (d : PolicyState σ τ) :
    (cover k now).run d =
      ((pass k d.rules d.policy now).map (·.2),
        { d with rules := passOrKeep k d.rules d.policy now }) := by
  simp only [cover, passOrKeep, StateT.run_modifyGet]
  cases pass k d.rules d.policy now <;> rfl

/-- The steps come to what `changePolicy` makes of the outcome of saving, whatever keeps the rules and
wherever the policy is saved. -/
theorem run_change (k : Keeper σ) (save : WildcardPolicy → StateM τ (Except Fault Unit))
    (policy : WildcardPolicy) (covering : Bool) (now : Instant) (d : PolicyState σ τ) :
    (change k save policy covering now).run d =
      let saving := (save policy).run d.saved
      let made := changePolicy k d.rules d.policy policy covering now saving.1
      (made.answer, ⟨made.policy, made.rules, saving.2⟩) := by
  cases covering with
  | false => rfl
  | true =>
      show (do
        let saving ← persist save policy
        return saving.map fun _ => d.policy).run ((cover k now).run { d with policy := policy }).2 = _
      rw [run_cover]
      rfl

theorem rules_after (k : Keeper σ) (save : WildcardPolicy → StateM τ (Except Fault Unit))
    (covering : Bool) (d : PolicyState σ τ) (request : WildcardPolicy × Instant) :
    (d.after k save covering request).rules =
      if covering then passOrKeep k d.rules request.1 request.2 else d.rules := by
  rw [after, run_change]
  rfl

theorem policy_after (k : Keeper σ) (save : WildcardPolicy → StateM τ (Except Fault Unit))
    (covering : Bool) (d : PolicyState σ τ) (request : WildcardPolicy × Instant) :
    (d.after k save covering request).policy = request.1 := by
  rw [after, run_change]
  rfl

/-! ### What a change leaves -/

variable {order : Listing} {refuse? : Store → List Rule → Option Fault} {d : PolicyState Store τ}
  {covering : Bool} {request : WildcardPolicy × Instant}

theorem rules_after_eq_or (order : Listing) (refuse? : Store → List Rule → Option Fault)
    (save : WildcardPolicy → StateM τ (Except Fault Unit)) (covering : Bool)
    (d : PolicyState Store τ) (request : WildcardPolicy × Instant) :
    (d.after (order.unreliable refuse?) save covering request).rules = d.rules ∨
      ∃ outcome, pass order.keeper d.rules request.1 request.2 =
        .ok ((d.after (order.unreliable refuse?) save covering request).rules, outcome) := by
  rw [rules_after]
  cases covering with
  | false => exact .inl rfl
  | true => exact passOrKeep_unreliable

theorem reachable_after (hs : d.rules.Reachable) :
    (d.after (order.unreliable refuse?) save covering request).rules.Reachable := by
  rcases rules_after_eq_or order refuse? save covering d request with hsame | ⟨outcome, hpass⟩
  · rwa [hsame]
  · exact reachable_of_pass hs hpass

theorem mem_after (hs : d.rules.Reachable) {r : Rule} (hr : r ∈ d.rules.rules) :
    r ∈ (d.after (order.unreliable refuse?) save covering request).rules.rules := by
  rcases rules_after_eq_or order refuse? save covering d request with hsame | ⟨outcome, hpass⟩
  · rwa [hsame]
  · exact (mem_next_iff hs hpass).mpr (.inl hr)

theorem answer_eq_ok_iff {saving : Except Fault Unit} {previous answer : WildcardPolicy} :
    (saving.map fun _ => previous) = .ok answer ↔ saving = .ok () ∧ answer = previous := by
  cases saving <;> simp [Except.map, eq_comm]

theorem answer_eq_error_iff {saving : Except Fault Unit} {previous : WildcardPolicy}
    {cause : Fault} : (saving.map fun _ => previous) = .error cause ↔ saving = .error cause := by
  cases saving <;> simp [Except.map]

/-- A change starts from a state that can be reached, and may fail in two places: the pass may be
refused, by the limit of the store or for any other reason, and the saving may fail in any way. Whatever
fails, the new policy is in force. The rules are those that a pass under the new policy makes of the old
ones, which are these and the rules for the roots that are due under it; where the pass is refused, or
none is made, they are the old ones. The answer depends on the saving alone: it is the policy that was
in force where the saving succeeds, and its fault where it fails. -/
theorem change_takes_effect (order : Listing) (refuse? : Store → List Rule → Option Fault)
    (save : WildcardPolicy → StateM τ (Except Fault Unit)) (d : PolicyState Store τ)
    (hs : d.rules.Reachable) (policy : WildcardPolicy) (covering : Bool) (now : Instant) :
    let k := order.unreliable refuse?
    let saving : Except Fault Unit × τ := (save policy).run d.saved
    let made : Except Fault WildcardPolicy × PolicyState Store τ :=
      (change k save policy covering now).run d
    changePolicy k d.rules d.policy policy covering now saving.1 =
        ⟨made.2.policy, made.2.rules, made.1⟩ ∧
      made.2.policy = policy ∧ made.2.saved = saving.2 ∧ made.2.rules.Reachable ∧
      (covering = false → made.2.rules = d.rules) ∧
      (covering = true →
        (∀ cause, pass k d.rules policy now = .error cause → made.2.rules = d.rules) ∧
        ∀ next outcome, pass k d.rules policy now = .ok (next, outcome) →
          made.2.rules = next ∧ next.limit = d.rules.limit ∧
          ∀ q, q ∈ next.rules ↔ q ∈ d.rules.rules ∨ policy.mode ≠ .subdomainsOnly ∧
            ∃ w root, d.rules.IsDue policy now w root ∧ q = rootRule w root now) ∧
      (∀ answer, made.1 = .ok answer ↔ saving.1 = .ok () ∧ answer = d.policy) ∧
      ∀ cause, made.1 = .error cause ↔ saving.1 = .error cause := by
  intro k saving made
  have hmade : made = _ := run_change k save policy covering now d
  have hreachable : made.2.rules.Reachable :=
    show (d.after k save covering (policy, now)).rules.Reachable from reachable_after hs
  rw [hmade] at hreachable ⊢
  refine ⟨rfl, rfl, rfl, hreachable, ?_, ?_, fun answer => answer_eq_ok_iff,
    fun cause => answer_eq_error_iff⟩
  · rintro rfl
    rfl
  · rintro rfl
    refine ⟨fun cause hrefused => ?_, fun next outcome hpass => ⟨?_, ?_, fun q => ?_⟩⟩
    · show passOrKeep k d.rules policy now = d.rules
      rw [passOrKeep, hrefused]
    · show passOrKeep k d.rules policy now = next
      rw [passOrKeep, hpass]
    · rw [rules_of_pass (pass_of_unreliable hpass)]
    · exact mem_next_iff hs (pass_of_unreliable hpass)

/-- A full store with a root that is due, and a file that is no document. -/
def stuck : PolicyState Store FileTree :=
  ⟨⟨.subdomainsOnly, true⟩, filledUp, ⟨[(["c"], .text "[wildcard")]⟩⟩

/-- There the pass is refused and the saving fails. -/
theorem change_takes_effect_stuck : stuck.rules.Reachable ∧
    let k := Listing.reversed.unreliable fun _ _ => none
    let made : Except Fault WildcardPolicy × PolicyState Store FileTree :=
      (change k (PolicyFile.save (FileTree.access []) "c") ⟨.smart, true⟩ true ⟨200, 0⟩).run stuck
    pass k stuck.rules ⟨.smart, true⟩ ⟨200, 0⟩ = .error (.capacity 6 5) ∧
      made.1 = .error (.malformed "c") ∧ made.2.policy = ⟨.smart, true⟩ ∧
      made.2.rules = stuck.rules := by
  have hfull : stuck.rules.Reachable :=
    .write (.add Store.uncovered.rules) (.empty (some 5)) (by decide +kernel)
  refine ⟨hfull, ?_⟩
  intro k made
  have hpass : pass k stuck.rules ⟨.smart, true⟩ ⟨200, 0⟩ = .error (.capacity 6 5) := by
    decide +kernel
  have hread : stuck.saved.read [] "c" = .ok "[wildcard" := by
    rw [FileTree.read, Path.parse_letter]
    rfl
  have hbroken : (Toml.Editor.standard.parse? "[wildcard".toList).isNone := by decide +kernel
  have hsaving : (PolicyFile.save (FileTree.access []) "c" ⟨.smart, true⟩).run stuck.saved =
      (.error (.malformed "c"), stuck.saved) :=
    PolicyFile.save_malformed (.inl hread) (Option.isNone_iff_eq_none.1 hbroken) _
  obtain ⟨-, hpolicy, -, -, -, hcovered, -, hfailed⟩ := change_takes_effect .reversed
    (fun _ _ => none) (PolicyFile.save (FileTree.access []) "c") stuck hfull ⟨.smart, true⟩ true
    ⟨200, 0⟩
  refine ⟨hpass, (hfailed _).mpr ?_, hpolicy, (hcovered rfl).1 _ hpass⟩
  rw [hsaving]

/-! ### One change after another -/

/-- No change of policy takes a rule away, whatever fails on the way. -/
theorem rules_changes (hs : d.rules.Reachable) (requests : List (WildcardPolicy × Instant)) :
    let last := requests.foldl (after (order.unreliable refuse?) save covering) d
    last.rules.Reachable ∧ ∀ r ∈ d.rules.rules, r ∈ last.rules.rules :=
  List.foldlRecOn
    (motive := fun e : PolicyState Store τ =>
      e.rules.Reachable ∧ ∀ r ∈ d.rules.rules, r ∈ e.rules.rules)
    requests (after (order.unreliable refuse?) save covering) ⟨hs, fun _ hr => hr⟩
    fun _ he _ _ => ⟨reachable_after he.1, fun r hr => mem_after he.1 (he.2 r hr)⟩

/-- After any number of changes the policy of the last one is in force, whatever failed on the way. -/
theorem policy_changes (k : Keeper σ) (save : WildcardPolicy → StateM τ (Except Fault Unit))
    (covering : Bool) (d : PolicyState σ τ) (requests : List (WildcardPolicy × Instant)) :
    (requests.foldl (after k save covering) d).policy =
      ((requests.map (·.1)).getLast?).getD d.policy := by
  rcases List.eq_nil_or_concat requests with rfl | ⟨earlier, last, rfl⟩
  · rfl
  · rw [List.concat_eq_append, List.foldl_concat, policy_after, List.map_append,
      List.getLast?_append]
    rfl

end PolicyState

end DnsFilter
