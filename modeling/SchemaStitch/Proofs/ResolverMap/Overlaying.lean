import Mathlib.Tactic.ByContra
import SchemaStitch.Proofs.ResolverMap.Paths

/-! One map laid over another. The upper map says what stands at a path wherever it has something on
the way or there; laying a map over once more changes nothing, and how maps laid over each other are
grouped does not matter as long as leaf and branch do not meet. -/
namespace SchemaStitch

namespace KeyTree

variable {α : Type} {t u v : KeyTree α}

/-- What holds of a tree if it holds of its branches holds of every tree. -/
theorem branch_induction {motive : KeyTree α → Prop}
    (step : ∀ t, (∀ key sub, t.get? key = some (.branch sub) → motive sub) → motive t)
    (t : KeyTree α) : motive t := by
  have below (t : KeyTree α) : ∀ key sub, t.get? key = some (.branch sub) → motive sub := by
    intro key sub found
    induction t generalizing key sub with
    | nil => cases found
    | leaf k v rest ih =>
      rw [get?] at found
      split at found
      · cases found
      · exact ih key sub found
    | branch k inner rest ih_sub ih =>
      rw [get?] at found
      split at found
      · cases found
        exact step _ ih_sub
      · exact ih key sub found
  exact step t (below t)

theorem Entry.over_unbranched (e : Entry α) {present : Option (Entry α)}
    (unbranched : ∀ sub, present ≠ some (.branch sub)) : e.over present = e := by
  cases e with
  | leaf w => rfl
  | branch sub =>
    rcases present with _ | ⟨w | mine⟩
    · rfl
    · rfl
    · exact absurd rfl (unbranched mine)

theorem Entry.over_eq_leaf {l : α} (e : Entry α) (present : Option (Entry α)) :
    e.over present = .leaf l ↔ e = .leaf l := by
  cases e with
  | leaf w => rfl
  | branch sub => rcases present with _ | ⟨w | mine⟩ <;> simp [Entry.over]

theorem Entry.over_is_branch (e : Entry α) (present : Option (Entry α)) :
    (∃ both, e.over present = .branch both) ↔ ∃ sub, e = .branch sub := by
  cases e with
  | leaf w => rfl
  | branch sub => rcases present with _ | ⟨w | mine⟩ <;> simp [Entry.over]

@[simp] theorem Entry.over_none (e : Entry α) : e.over none = e :=
  e.over_unbranched (by simp)

theorem keys_overlay (keyed : u.Keyed) :
    (t.overlay u).keys = t.keys ++ u.keys.filter (· ∉ t.keys) := by
  have step {t rest : KeyTree α} {key : String} (e : Entry α) (fresh : key ∉ rest.keys) :
      (t.insert key e).keys ++ rest.keys.filter (· ∉ (t.insert key e).keys) =
        t.keys ++ (key :: rest.keys).filter (· ∉ t.keys) := by
    rw [keys_insert]
    split
    · rename_i known
      simp [known]
    · rename_i new
      have same : rest.keys.filter (· ∉ t.keys ++ [key]) = rest.keys.filter (· ∉ t.keys) := by
        refine List.filter_congr fun k member => ?_
        have differ : k ≠ key := by rintro rfl; exact fresh member
        simp [differ]
      rw [List.append_assoc, same, List.filter_cons_of_pos (by simpa using new)]
      rfl
  induction u generalizing t with
  | nil => simp [overlay, keys]
  | leaf key w rest ih => rw [overlay, ih keyed.2, keys, step _ keyed.1]
  | branch key sub rest _ ih =>
    rw [overlay]
    split <;> rw [ih keyed.2.2, keys, step _ keyed.1]

theorem nil_overlay (keyed : u.Keyed) : (nil : KeyTree α).overlay u = u := by
  refine Keyed.ext (Keyed.overlay trivial keyed) keyed ?_ fun key => ?_
  · simp [keys_overlay keyed, keys]
  · rw [get?_overlay keyed]
    cases u.get? key <;> simp [get?]

/-- Laid over a second time, a tree changes nothing. -/
theorem overlay_again (left : t.Keyed) (right : u.Keyed) :
    (t.overlay u).overlay u = t.overlay u := by
  induction u using branch_induction generalizing t with
  | step u ih =>
    refine Keyed.ext ((left.overlay right).overlay right) (left.overlay right) ?_ fun key => ?_
    · have known : (u.keys.filter fun k => k ∉ (t.overlay u).keys) = [] := by
        simp only [List.filter_eq_nil_iff, keys_overlay right, List.mem_append, List.mem_filter]
        simp +contextual
      rw [keys_overlay right, known, List.append_nil]
    · rw [get?_overlay right, get?_overlay right]
      cases upper : u.get? key with
      | none => rfl
      | some e =>
        cases e with
        | leaf w => rfl
        | branch sub =>
          have sub_keyed := right.branch upper
          have alone : sub.overlay sub = sub := by
            have again := ih key sub upper (t := .nil) trivial sub_keyed
            rwa [nil_overlay sub_keyed] at again
          cases lower : t.get? key with
          | none => simp [Entry.over, alone]
          | some own =>
            cases own with
            | leaf w => simp [Entry.over, alone]
            | branch mine => simp [Entry.over, ih key sub upper (left.branch lower) sub_keyed]

/-- Trees laid over each other may be grouped either way, unless a leaf of the middle one stands where
the upper one has a branch. -/
theorem overlay_assoc (first : t.Keyed) (second : u.Keyed) (third : v.Keyed)
    (apart : ∀ path l sub, u.find? path = some (.leaf l) → v.find? path ≠ some (.branch sub)) :
    (t.overlay u).overlay v = t.overlay (u.overlay v) := by
  induction v using branch_induction generalizing t u with
  | step v ih =>
    have upper := second.overlay third
    refine Keyed.ext ((first.overlay second).overlay third) (first.overlay upper) ?_ fun key => ?_
    · rw [keys_overlay third, keys_overlay second, keys_overlay upper, keys_overlay third]
      rw [List.filter_append, List.filter_filter, List.append_assoc]
      congr 2
      refine List.filter_congr fun k _ => ?_
      by_cases known : k ∈ t.keys <;> simp [known]
    · rw [get?_overlay third, get?_overlay second, get?_overlay upper, get?_overlay third]
      cases top : v.get? key with
      | none => rfl
      | some e =>
        cases e with
        | leaf w => rfl
        | branch sub =>
          cases middle : u.get? key with
          | none => simp
          | some own =>
            cases own with
            | leaf w =>
              exact absurd ((find?_key v key).trans top)
                (apart [key] w sub ((find?_key u key).trans middle))
            | branch mine =>
              have below : ∀ path l inner, mine.find? path = some (.leaf l) →
                  sub.find? path ≠ some (.branch inner) := fun path l inner leaf branch =>
                apart (key :: path) l inner (find?_of_branch middle leaf)
                  (find?_of_branch top branch)
              cases bottom : t.get? key with
              | none => simp [Entry.over]
              | some lowest =>
                cases lowest with
                | leaf w => simp [Entry.over]
                | branch base =>
                  simp [Entry.over, ih key sub top (first.branch bottom) (second.branch middle)
                    (third.branch top) below]

/-- What stands at a path under no leaf of the upper tree. -/
theorem find?_overlay (keyed : u.Keyed) {path : List String}
    (clear : ∀ front l, front <+: path → front ≠ path → u.find? front ≠ some (.leaf l)) :
    (t.overlay u).find? path =
      match u.find? path with
      | some e => some (e.over (t.find? path))
      | none => t.find? path := by
  induction path generalizing t u with
  | nil => rfl
  | cons key path ih =>
    by_cases below : path = []
    · subst path
      simp only [find?_key]
      exact get?_overlay keyed key
    · have here := get?_overlay (t := t) keyed key
      cases upper : u.get? key with
      | none =>
        rw [upper] at here
        rw [find?_absent upper, find?_eq_bind, here, ← find?_eq_bind]
      | some e =>
        rw [upper] at here
        cases e with
        | leaf w =>
          exact absurd ((find?_key u key).trans upper)
            (clear [key] w (by simp) (by simpa using Ne.symm below))
        | branch sub =>
          change (t.overlay u).get? key = some ((Entry.branch sub).over (t.get? key)) at here
          have sub_clear : ∀ front l, front <+: path → front ≠ path →
              sub.find? front ≠ some (.leaf l) := fun front l before differ leaf =>
            clear (key :: front) l (by simpa using before) (by simpa using differ)
              (find?_of_branch upper leaf)
          rw [find?_below upper below]
          by_cases both : ∃ mine, t.get? key = some (.branch mine)
          · obtain ⟨mine, lower⟩ := both
            rw [lower] at here
            rw [find?_below here below, find?_below lower below,
              ih (keyed.branch upper) sub_clear]
          · rw [not_exists] at both
            rw [Entry.over_unbranched _ both] at here
            rw [find?_below here below, find?_unbranched both below]
            cases sub.find? path <;> simp

/-- A leaf of the upper tree stands, and nothing stands beyond it. -/
theorem find?_overlay_past_leaf (keyed : u.Keyed) {front path : List String} {l : α}
    (leaf : u.find? front = some (.leaf l)) (before : front <+: path) (differ : front ≠ path) :
    (t.overlay u).find? path = none := by
  have stands : (t.overlay u).find? front = some (.leaf l) := by
    rw [find?_overlay keyed (no_leaf_before leaf), leaf]
    rfl
  exact find?_past_leaf stands before differ

/-- A kind of entry that is kept in an overlay stands where the upper tree has it, and where the lower
one has it with nothing of the upper one there and no leaf of it on the way. -/
theorem find?_overlay_iff (keyed : u.Keyed) (kind : Entry α → Prop)
    (kept : ∀ e present, kind (e.over present) ↔ kind e) (path : List String) :
    (∃ e, (t.overlay u).find? path = some e ∧ kind e) ↔
      (∃ e, u.find? path = some e ∧ kind e) ∨
        u.find? path = none ∧
          (∀ front l, front <+: path → front ≠ path → u.find? front ≠ some (.leaf l)) ∧
          ∃ e, t.find? path = some e ∧ kind e := by
  by_cases clear : ∀ front l, front <+: path → front ≠ path → u.find? front ≠ some (.leaf l)
  · rw [find?_overlay keyed clear]
    cases u.find? path with
    | none => simpa using fun _ _ _ => clear
    | some e => simp [kept]
  · simp only [not_forall, ne_eq, not_not] at clear
    obtain ⟨front, l, before, differ, leaf⟩ := clear
    rw [find?_overlay_past_leaf keyed leaf before differ, find?_past_leaf leaf before differ]
    simpa using fun free => absurd leaf (free front l before differ)

/-- Branches that are laid over each other keep the keys of the lower one in front; a branch of the
lower tree is empty here where there is none. -/
theorem keys_branchAt_overlay (keyed : u.Keyed) {path : List String}
    (clear : ∀ front l, front <+: path → u.find? front ≠ some (.leaf l)) :
    ((t.overlay u).branchAt path).keys =
      (t.branchAt path).keys ++ (u.branchAt path).keys.filter (· ∉ (t.branchAt path).keys) := by
  induction path generalizing t u with
  | nil => exact keys_overlay keyed
  | cons key path ih =>
    rw [branchAt_cons, branchAt_cons key path t, branchAt_cons key path u, branchAt_single,
      branchAt_single t, branchAt_single u, get?_overlay keyed]
    cases upper : u.get? key with
    | none => simp [keys]
    | some e =>
      cases e with
      | leaf w => exact absurd ((find?_key u key).trans upper) (clear [key] w (by simp))
      | branch sub =>
        have sub_clear : ∀ front l, front <+: path → sub.find? front ≠ some (.leaf l) :=
          fun front l before leaf =>
            clear (key :: front) l (by simpa using before) (find?_of_branch upper leaf)
        have alone : (sub.branchAt path).keys =
            [] ++ (sub.branchAt path).keys.filter (· ∉ []) :=
          (List.filter_eq_self.mpr (by simp)).symm
        cases lower : t.get? key with
        | none =>
          rw [branchAt_nil]
          exact alone
        | some own =>
          cases own with
          | leaf w =>
            rw [branchAt_nil]
            exact alone
          | branch mine => exact ih (keyed.branch upper) sub_clear

end KeyTree

namespace ResolverMap

/-- What laying an upper map over a lower one makes: an entry of the upper one stands, and one of the
lower one where the upper one has nothing there and no leaf on the way; in every branch the keys of
the lower one come first, then those that the upper one adds. -/
structure Overlaid (lower upper merged : ResolverMap) : Prop where
  leaves : ∀ path l, merged.at? path = .ok (.leaf l) ↔
    upper.at? path = .ok (.leaf l) ∨
      upper.find? path = none ∧
        (∀ front other, front <+: path → front ≠ path → upper.at? front ≠ .ok (.leaf other)) ∧
        lower.at? path = .ok (.leaf l)
  branches : ∀ path, (∃ sub, merged.at? path = .ok (.branch sub)) ↔
    (∃ sub, upper.at? path = .ok (.branch sub)) ∨
      upper.find? path = none ∧
        (∀ front other, front <+: path → front ≠ path → upper.at? front ≠ .ok (.leaf other)) ∧
        ∃ sub, lower.at? path = .ok (.branch sub)
  order : ∀ path, (∀ front l, front <+: path → upper.at? front ≠ .ok (.leaf l)) →
    (merged.branchAt path).keys = (lower.branchAt path).keys ++
      (upper.branchAt path).keys.filter (· ∉ (lower.branchAt path).keys)

theorem overlaid (lower : ResolverMap) {upper : ResolverMap} (keyed : upper.Keyed) :
    Overlaid lower upper (lower.overlay upper) where
  leaves := by
    intro path l
    simpa [at?_ok] using KeyTree.find?_overlay_iff (t := lower) keyed (· = .leaf l)
      KeyTree.Entry.over_eq_leaf path
  branches := by
    intro path
    have named (t : ResolverMap) : (∃ e, t.find? path = some e ∧ ∃ sub, e = .branch sub) ↔
        ∃ sub, t.find? path = some (.branch sub) := by
      constructor
      · rintro ⟨_, stands, sub, rfl⟩
        exact ⟨sub, stands⟩
      · rintro ⟨sub, stands⟩
        exact ⟨_, stands, sub, rfl⟩
    simpa [at?_ok, named] using KeyTree.find?_overlay_iff (t := lower) keyed
      (fun e => ∃ sub, e = .branch sub) KeyTree.Entry.over_is_branch path
  order := by
    intro path clear
    simp only [ne_eq, at?_ok] at clear
    exact KeyTree.keys_branchAt_overlay keyed clear

/-- Laying one map over another is right-biased: it unites the two with the upper one before the lower
one, changes nothing when done again, and maps whose leaves and branches do not meet may be laid over
each other in either grouping. -/
theorem overlay_right_biased {a b c : ResolverMap} (first : a.Keyed) (second : b.Keyed)
    (third : c.Keyed) :
    Overlaid a b (a.overlay b) ∧ (a.overlay b).overlay b = a.overlay b ∧
      ((∀ path l sub, b.at? path = .ok (.leaf l) → c.at? path ≠ .ok (.branch sub)) →
        (a.overlay b).overlay c = a.overlay (b.overlay c)) := by
  refine ⟨overlaid a second, KeyTree.overlay_again first second, fun apart => ?_⟩
  refine KeyTree.overlay_assoc first second third fun path l sub leaf branch => ?_
  exact apart path l sub (at?_ok.mpr leaf) (at?_ok.mpr branch)

theorem overlay_right_biased_layers :
    ∃ a b c : ResolverMap, a.Keyed ∧ b.Keyed ∧ c.Keyed ∧
      (∀ path l sub, b.at? path = .ok (.leaf l) → c.at? path ≠ .ok (.branch sub)) ∧
      (a.overlay b).keys = ["p", "Query", "T"] ∧
      ((a.overlay b).overlay c).branchAt ["Query"] =
        (.leaf "a" (.value (.string "c")) (.leaf "b" (.value (.string "b")) .nil)) ∧
      Overlaid a b (a.overlay b) ∧ (a.overlay b).overlay b = a.overlay b ∧
      (a.overlay b).overlay c = a.overlay (b.overlay c) := by
  let text (s : String) : Leaf := .value (.string s)
  -- The first map has a leaf where the second has a branch, and a branch where it has a leaf.
  let a : ResolverMap := .leaf "p" (text "a") <| .branch "Query"
    (.leaf "a" (text "a") (.branch "b" (.leaf "x" (text "a") .nil) .nil)) .nil
  let b : ResolverMap := .branch "T" (.leaf "x" (text "b") .nil) <|
    .branch "Query" (.leaf "b" (text "b") .nil) (.branch "p" .nil .nil)
  let c : ResolverMap := .branch "Query" (.leaf "a" (text "c") .nil) .nil
  have a_keyed : a.Keyed := by simp [a, KeyTree.Keyed, KeyTree.keys]
  have b_keyed : b.Keyed := by simp [b, KeyTree.Keyed, KeyTree.keys]
  have c_keyed : c.Keyed := by simp [c, KeyTree.Keyed, KeyTree.keys]
  have apart : ∀ path l sub, b.at? path = .ok (.leaf l) → c.at? path ≠ .ok (.branch sub) := by
    intro path l sub leaf branch
    rw [at?_ok] at leaf branch
    rcases path with _ | ⟨key, path⟩
    · cases leaf
    · by_cases same : key = "Query"
      · subst key
        rcases path with _ | ⟨next, path⟩
        · cases leaf
        · obtain ⟨inner, here, found⟩ := KeyTree.branch_of_find? branch (by simp)
          cases here
          have shallow : path = [] := by
            by_contra deeper
            obtain ⟨deep, below, _⟩ := KeyTree.branch_of_find? found deeper
            simp [KeyTree.get?] at below
          subst path
          simp [KeyTree.find?_key, KeyTree.get?] at found
      · have absent : c.get? key = none := by simp [c, KeyTree.get?, Ne.symm same]
        rw [KeyTree.find?_absent absent] at branch
        cases branch
  obtain ⟨overlaid, again, grouped⟩ := overlay_right_biased a_keyed b_keyed c_keyed
  exact ⟨a, b, c, a_keyed, b_keyed, c_keyed, apart, rfl, rfl, overlaid, again, grouped apart⟩

end ResolverMap
end SchemaStitch
