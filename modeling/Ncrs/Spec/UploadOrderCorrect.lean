import Ncrs.Native.UploadOrder

/-!
# Etags after a rename

A rename re-keys the etag that was recorded for the path itself. What was recorded for files below it keeps
its old key, and what was recorded at or below the destination stays there unless the path itself has an
etag to put in its place. No two paths have an etag of one generation, so that an answer tells whose it is.

## Key results

- `lookup_moved`: the etags after a rename.
- `Inv.apply`: generations tell the recorded etags apart.
- `etags_follow_rename_iff`: the renames that etags follow.
-/

namespace Ncrs

namespace UploadOrder

/-- What a recorded etag answers. -/
def answer (v : Option (Nat × Option String)) (openedGen : Nat) (original : Option String) : Option String :=
  match v with
  | some (g, etag) => if openedGen < g then etag else original
  | none => original

variable {u : UploadOrder} {src dst : PathBuf}

theorem etagFor_eq (u : UploadOrder) (path : PathBuf) (openedGen : Nat) (original : Option String) :
    u.etagFor path openedGen original = answer (u.committed.lookup path) openedGen original := rfl

/-- Recorded etags are told apart by their answers. -/
theorem eq_of_answer_eq {v w : Option (Nat × Option String)} (hv : ∀ x ∈ v, 0 < x.1) (hw : ∀ x ∈ w, 0 < x.1)
    (h : ∀ g o, answer v g o = answer w g o) : v = w := by
  -- a recorded etag does not pass every original on
  have hnone : ∀ (g : Nat) (e : Option String), 0 < g → ¬ ∀ o, answer (some (g, e)) 0 o = o := by
    intro g e hg hall
    have h₁ : e = none := (if_pos hg).symm.trans (hall none)
    have h₂ : e = some "" := (if_pos hg).symm.trans (hall (some ""))
    rw [h₁] at h₂
    cases h₂
  have hlt : ∀ (a b : Nat) (e f : Option String), a < b →
      ¬ ∀ o, answer (some (a, e)) a o = answer (some (b, f)) a o := by
    intro a b e f hab hall
    have hpass : ∀ o, o = f := by
      intro o
      have ho := hall o
      simp only [answer, Nat.lt_irrefl, if_false, hab, if_true] at ho
      exact ho
    cases (hpass none).trans (hpass (some "")).symm
  cases v with
  | none =>
    cases w with
    | none => rfl
    | some y => exact absurd (fun o => (h 0 o).symm) (hnone y.1 y.2 (hw y rfl))
  | some x =>
    cases w with
    | none => exact absurd (fun o => h 0 o) (hnone x.1 x.2 (hv x rfl))
    | some y =>
      obtain ⟨a, e⟩ := x
      obtain ⟨b, f⟩ := y
      obtain hab | rfl | hab := Nat.lt_trichotomy a b
      · exact absurd (fun o => h a o) (hlt a b e f hab)
      · have hpos : 0 < a := hv _ rfl
        have h0 := h 0 none
        simp only [answer, hpos, if_true] at h0
        rw [h0]
      · exact absurd (fun o => (h b o).symm) (hlt b a f e hab)

/-! ## Generations -/

/-- Every etag has a generation of its own. -/
structure Inv (u : UploadOrder) : Prop where
  bounds : ∀ p v, u.committed.lookup p = some v → 0 < v.1 ∧ v.1 ≤ u.gen
  distinct : ∀ p q v w, u.committed.lookup p = some v → u.committed.lookup q = some w → v.1 = w.1 → p = q

theorem lookup_moved (u : UploadOrder) (src dst p : PathBuf) :
    (u.moved src dst).committed.lookup p =
      if (u.committed.lookup src).isSome then
        if p = dst then u.committed.lookup src else if p = src then none else u.committed.lookup p
      else u.committed.lookup p := by
  unfold moved
  dsimp only
  cases hsrc : u.committed.lookup src with
  | none => rfl
  | some v =>
    simp only [Option.isSome_some, if_true]
    rw [AList.lookup_insert_eq_ite, AList.lookup_erase_eq_ite]

theorem gen_moved (u : UploadOrder) (src dst : PathBuf) : (u.moved src dst).gen = u.gen := by
  unfold moved
  dsimp only
  cases u.committed.lookup src <;> rfl

/-- An etag that is there after a rename was there before, under this path or the source of the rename. -/
theorem lookup_of_lookup_moved {p : PathBuf} {v : Nat × Option String}
    (h : (u.moved src dst).committed.lookup p = some v) :
    p = dst ∧ u.committed.lookup src = some v ∨ (p = dst → u.committed.lookup src = none) ∧
      (p = src → u.committed.lookup src = none) ∧ u.committed.lookup p = some v := by
  rw [lookup_moved] at h
  cases hsrc : u.committed.lookup src with
  | none =>
    rw [hsrc] at h
    exact .inr ⟨fun _ => rfl, fun _ => rfl, h⟩
  | some w =>
    rw [hsrc, Option.isSome_some, if_pos rfl] at h
    split at h
    · rename_i hp
      exact .inl ⟨hp, h⟩
    · rename_i hp
      split at h
      · cases h
      · rename_i hp'
        exact .inr ⟨fun heq => absurd heq hp, fun heq => absurd heq hp', h⟩

theorem Inv.moved (h : u.Inv) (src dst : PathBuf) : (u.moved src dst).Inv where
  bounds p v hv := by
    rw [gen_moved]
    obtain ⟨-, hv⟩ | ⟨-, -, hv⟩ := lookup_of_lookup_moved hv
    · exact h.bounds src v hv
    · exact h.bounds p v hv
  distinct p q v w hv hw hgen := by
    obtain ⟨hp, hold⟩ | ⟨-, hp, hold⟩ := lookup_of_lookup_moved hv
    · obtain ⟨hq, -⟩ | ⟨-, hq, hold'⟩ := lookup_of_lookup_moved hw
      · exact hp.trans hq.symm
      · have heq := h.distinct src q v w hold hold' hgen
        rw [hq heq.symm] at hold
        cases hold
    · obtain ⟨-, hold'⟩ | ⟨-, -, hold'⟩ := lookup_of_lookup_moved hw
      · have heq := h.distinct p src v w hold hold' hgen
        rw [hp heq] at hold'
        cases hold'
      · exact h.distinct p q v w hold hold' hgen

theorem Inv.record (h : u.Inv) (path : PathBuf) (etag : Option String) : (u.record path etag).Inv := by
  have hlookup : ∀ p v, (u.record path etag).committed.lookup p = some v →
      p = path ∧ v.1 = u.gen + 1 ∨ p ≠ path ∧ u.committed.lookup p = some v := by
    intro p v hv
    have hv : (u.committed.insert path (u.gen + 1, etag)).lookup p = some v := hv
    rw [AList.lookup_insert_eq_ite] at hv
    split at hv
    · rename_i hp
      cases hv
      exact .inl ⟨hp, rfl⟩
    · rename_i hp
      exact .inr ⟨hp, hv⟩
  constructor
  · intro p v hv
    show 0 < v.1 ∧ v.1 ≤ u.gen + 1
    obtain ⟨-, hnew⟩ | ⟨-, hold⟩ := hlookup p v hv
    · omega
    · have := h.bounds p v hold
      omega
  · intro p q v w hv hw hgen
    obtain ⟨hp, hnew⟩ | ⟨-, hold⟩ := hlookup p v hv
    · obtain ⟨hq, -⟩ | ⟨-, hold'⟩ := hlookup q w hw
      · exact hp.trans hq.symm
      · have := h.bounds q w hold'
        omega
    · obtain ⟨-, hnew⟩ | ⟨-, hold'⟩ := hlookup q w hw
      · have := h.bounds p v hold
        omega
      · exact h.distinct p q v w hold hold' hgen

theorem Inv.forget (h : u.Inv) (path : PathBuf) : (u.forget path).Inv := by
  have hlookup : ∀ p v, (u.forget path).committed.lookup p = some v → u.committed.lookup p = some v := by
    intro p v hv
    have hv : (u.committed.erase path).lookup p = some v := hv
    rw [AList.lookup_erase_eq_ite] at hv
    split at hv
    · cases hv
    · exact hv
  exact ⟨fun p v hv => h.bounds p v (hlookup p v hv),
    fun p q v w hv hw => h.distinct p q v w (hlookup p v hv) (hlookup q w hw)⟩

theorem Inv.apply (h : u.Inv) (op : Op) : (u.apply op).Inv := by
  cases op with
  | record path etag => exact h.record path etag
  | moved src dst => exact h.moved src dst
  | forget path => exact h.forget path
  | serve | wrote | unknown => exact ⟨h.bounds, h.distinct⟩

theorem inv_run (ops : List Op) : (run ops).Inv := by
  unfold run
  induction ops using List.reverseRecOn with
  | nil => exact ⟨nofun, nofun⟩
  | append_singleton ops op ih =>
    rw [List.foldl_append, List.foldl_cons, List.foldl_nil]
    exact ih.apply op

/-! ## Renames -/

/-- A rename after which the moved files have their etags, and none that was recorded at or below the
    destination before. -/
structure FollowsRename (u : UploadOrder) (src dst : PathBuf) : Prop where
  etags : ∀ r g o, (u.moved src dst).etagFor (dst ++ r) g o = u.etagFor (src ++ r) g o
  noStale : ∀ r r' v, (u.moved src dst).committed.lookup (dst ++ r) = some v →
    u.committed.lookup (dst ++ r') = some v → dst ++ r' = src ++ r

/-- A rename with something recorded for the path itself if there is for the destination, and nothing for
    what is below either, the path itself apart. -/
structure OnlyPathRecorded (u : UploadOrder) (src dst : PathBuf) : Prop where
  path : (u.committed.lookup src).isSome ∨ u.committed.lookup dst = none
  belowSrc : ∀ r, r ≠ [] → u.committed.lookup (src ++ r) = none
  belowDst : ∀ r, r ≠ [] → dst ++ r ≠ src → u.committed.lookup (dst ++ r) = none

theorem Inv.followsRename_iff_lookup (h : u.Inv) :
    FollowsRename u src dst ↔
      ∀ r, (u.moved src dst).committed.lookup (dst ++ r) = u.committed.lookup (src ++ r) := by
  constructor
  · intro hfollows r
    refine eq_of_answer_eq (fun x hx => ((h.moved src dst).bounds _ x hx).1) (fun x hx => (h.bounds _ x hx).1)
      fun g o => ?_
    exact hfollows.etags r g o
  · intro hlookup
    refine ⟨fun r g o => ?_, fun r r' v hv hv' => ?_⟩
    · rw [etagFor_eq, etagFor_eq, hlookup]
    · rw [hlookup] at hv
      exact h.distinct _ _ v v hv' hv rfl

/-- Etags follow a rename if and only if it changes no name, or nothing is recorded that it leaves
    behind. -/
theorem etags_follow_rename_iff (ops : List Op) (src dst : PathBuf) :
    FollowsRename (run ops) src dst ↔ src = dst ∨ OnlyPathRecorded (run ops) src dst := by
  have h := inv_run ops
  generalize run ops = u at h
  rw [h.followsRename_iff_lookup]
  constructor
  · intro hlookup
    by_cases hne : src = dst
    · exact .inl hne
    -- an etag that has its place already is one of two paths
    have hapart : ∀ r v, u.committed.lookup (dst ++ r) = some v → u.committed.lookup (src ++ r) ≠ some v := by
      intro r v hv hv'
      exact hne (List.append_cancel_right (h.distinct _ _ v v hv' hv rfl))
    refine .inr ⟨?_, fun r hr => ?_, fun r hr hsrc => ?_⟩
    · have hself := hlookup []
      rw [List.append_nil, List.append_nil, lookup_moved] at hself
      cases hpath : u.committed.lookup src with
      | some v => exact .inl rfl
      | none =>
        rw [hpath] at hself
        exact .inr hself
    · rw [← Option.not_isSome_iff_eq_none]
      intro hsome
      obtain ⟨v, hv⟩ := Option.isSome_iff_exists.mp hsome
      have hmoved := (hlookup r).trans hv
      obtain ⟨heq, -⟩ | ⟨-, -, hold⟩ := lookup_of_lookup_moved hmoved
      · exact hr (by simpa using heq)
      · exact hapart r v hold hv
    · rw [← Option.not_isSome_iff_eq_none]
      intro hsome
      obtain ⟨v, hv⟩ := Option.isSome_iff_exists.mp hsome
      have hmoved : (u.moved src dst).committed.lookup (dst ++ r) = some v := by
        simp [lookup_moved, hr, hsrc, hv]
      exact hapart r v hv ((hlookup r).symm.trans hmoved)
  · intro hcond r
    rw [lookup_moved]
    obtain rfl | honly := hcond
    · by_cases hr : r = []
      · rw [hr, List.append_nil, if_pos rfl, ite_self]
      · simp [hr]
    · by_cases hr : r = []
      · rw [hr, List.append_nil, List.append_nil, if_pos rfl]
        split
        · rfl
        · rename_i hnone
          rw [honly.path.resolve_left hnone, Option.not_isSome_iff_eq_none.mp hnone]
      · have hdst : dst ++ r ≠ dst := by simpa using hr
        rw [honly.belowSrc r hr, if_neg hdst]
        by_cases hsrc : dst ++ r = src
        · rw [if_pos hsrc, hsrc]
          split
          · rfl
          · rename_i hnone
            exact Option.not_isSome_iff_eq_none.mp hnone
        · rw [if_neg hsrc, honly.belowDst r hr hsrc, ite_self]

/-- The etag of a file in a renamed folder is left behind, and the one of a replaced file is answered for
    the file that took its place. -/
theorem renamed_folder_loses_etags :
    ((run [.record ["d", "a"] (some "e2")]).moved ["d"] ["x"]).etagFor ["x", "a"] 0 (some "e1") = some "e1" ∧
      (run [.record ["d", "a"] (some "e2")]).etagFor ["d", "a"] 0 (some "e1") = some "e2" ∧
      ((run [.record ["b"] (some "e9")]).moved ["a"] ["b"]).etagFor ["b"] 0 (some "e1") = some "e9" := by
  decide

end UploadOrder

end Ncrs
