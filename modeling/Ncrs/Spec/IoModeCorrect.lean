import Ncrs.Native.IoMode
import Mathlib.Data.List.Perm.Basic
import Mathlib.Tactic.Tauto

/-!
# The I/O-mode mirror

The mode of an inode counts the handles of its kind that are outstanding, and every other handle of
the inode is a direct one (`Counted`). One equivalence says how a handle that a mode covers enters
and leaves the count (`counted_cons`); opening, adopting and releasing a handle are three uses of it.

## Key results

- `Opens.Mirrors.step`: what the mirror counts stays what is outstanding
- `Opens.outstanding_handles_fit_the_kernel`: the kernel's rule holds of the handles of every inode,
  and of each new one
-/

namespace Ncrs

namespace IoMode

variable {B : Type}

/-! ## What a mode counts -/

/-- The handles a mode stands for. -/
def Mode.Covers : Mode B → Handle B → Prop
  | .passthrough b f _, h => h.kind = .passthrough ∧ h.adopted = false ∧ h.backing = some (b, f)
  | .cached _, h => h.kind = .cached
  | .foreign _, h => h.kind = .passthrough ∧ h.adopted = true

@[simp] theorem Mode.kind_setOpens (m : Mode B) (n : Nat) : (m.setOpens n).kind = m.kind := by
  cases m <;> rfl

@[simp] theorem Mode.opens_setOpens (m : Mode B) (n : Nat) : (m.setOpens n).opens = n := by
  cases m <;> rfl

@[simp] theorem Mode.setOpens_opens (m : Mode B) : m.setOpens m.opens = m := by
  cases m <;> rfl

@[simp] theorem Mode.covers_setOpens (m : Mode B) (n : Nat) (h : Handle B) :
    (m.setOpens n).Covers h ↔ m.Covers h := by
  cases m <;> rfl

theorem Mode.Covers.kind_eq {m : Mode B} {h : Handle B} (hc : m.Covers h) : h.kind = m.kind := by
  cases m with
  | passthrough b f n => exact hc.1
  | cached n => exact hc
  | foreign n => exact hc.1

theorem Mode.kind_ne_directIo (m : Mode B) : m.kind ≠ .directIo := by
  cases m <;> simp [Mode.kind]

/-- How many handles of a kind an inode has. -/
def count (hs : List (Handle B)) (ino : Nat) (kind : IoKind) : Nat :=
  hs.countP fun h => h.ino = ino ∧ h.kind = kind

/-- The mode of `ino` counts its handles in `hs`. -/
def Counted (hs : List (Handle B)) (ino : Nat) : Option (Mode B) → Prop
  | none => ∀ h ∈ hs, h.ino = ino → h.kind = .directIo
  | some m =>
    0 < m.opens ∧ m.opens = count hs ino m.kind ∧
      ∀ h ∈ hs, h.ino = ino → h.kind = .directIo ∨ m.Covers h

variable {hs hs' : List (Handle B)} {h : Handle B} {ino n : Nat} {m : Mode B} {o : Option (Mode B)}

theorem Counted.perm (hp : hs.Perm hs') (hc : Counted hs ino o) : Counted hs' ino o := by
  cases o with
  | none => exact fun x hx => hc x (hp.mem_iff.mpr hx)
  | some m =>
    obtain ⟨hpos, hcount, hall⟩ := hc
    have hsame : count hs ino m.kind = count hs' ino m.kind := hp.countP_eq _
    exact ⟨hpos, by omega, fun x hx => hall x (hp.mem_iff.mpr hx)⟩

theorem count_cons_of_not (hn : ¬ (h.ino = ino ∧ h.kind = m.kind)) :
    count (h :: hs) ino m.kind = count hs ino m.kind := by
  simp [count, hn]

/-- A handle of another inode, or one that uses no mode, does not matter. -/
theorem counted_cons_other (hother : h.ino = ino → h.kind = .directIo) :
    Counted (h :: hs) ino o ↔ Counted hs ino o := by
  cases o with
  | none =>
    simp only [Counted, List.forall_mem_cons]
    exact and_iff_right hother
  | some m =>
    have hn : ¬ (h.ino = ino ∧ h.kind = m.kind) :=
      fun hk => m.kind_ne_directIo (hk.2 ▸ hother hk.1)
    have hleft : h.ino = ino → h.kind = .directIo ∨ m.Covers h := fun hi => .inl (hother hi)
    simp only [Counted, count_cons_of_not hn, List.forall_mem_cons]
    tauto

/-- A handle the mode covers is one of those it counts. -/
theorem counted_cons (hino : h.ino = ino) (hc : m.Covers h) :
    Counted (h :: hs) ino (some (m.setOpens (n + 1))) ↔
      Counted hs ino (if n = 0 then none else some (m.setOpens n)) := by
  have hcount : count (h :: hs) ino m.kind = count hs ino m.kind + 1 := by
    simp [count, hino, hc.kind_eq]
  have hzero : count hs ino m.kind = 0 ↔ ∀ x ∈ hs, x.ino = ino → x.kind ≠ m.kind := by
    simp [count, List.countP_eq_zero]
  have hhead : h.ino = ino → h.kind = .directIo ∨ m.Covers h := fun _ => .inr hc
  have hleft : Counted (h :: hs) ino (some (m.setOpens (n + 1))) ↔
      n = count hs ino m.kind ∧ ∀ x ∈ hs, x.ino = ino → x.kind = .directIo ∨ m.Covers x := by
    simp only [Counted, Mode.opens_setOpens, Mode.kind_setOpens, Mode.covers_setOpens, hcount,
      List.forall_mem_cons]
    constructor
    · rintro ⟨-, hnum, -, hall⟩
      exact ⟨by omega, hall⟩
    · rintro ⟨hnum, hall⟩
      exact ⟨by omega, by omega, hhead, hall⟩
  rw [hleft]
  by_cases hn : n = 0
  · rw [if_pos hn, hn]
    constructor
    · rintro ⟨hnum, hall⟩ x hx hxi
      exact (hall x hx hxi).resolve_right fun hx' => hzero.mp hnum.symm x hx hxi hx'.kind_eq
    · intro hall
      exact ⟨(hzero.mpr fun x hx hxi hk => m.kind_ne_directIo (hk ▸ hall x hx hxi)).symm,
        fun x hx hxi => .inl (hall x hx hxi)⟩
  · rw [if_neg hn]
    simp only [Counted, Mode.opens_setOpens, Mode.kind_setOpens, Mode.covers_setOpens]
    exact (and_iff_right (Nat.pos_of_ne_zero hn)).symm

/-- A mode stands for at least one handle. -/
theorem exists_of_counted (hc : Counted hs ino (some m)) :
    ∃ h ∈ hs, h.ino = ino ∧ h.kind = m.kind := by
  obtain ⟨hpos, hnum, -⟩ := hc
  have hcount : 0 < count hs ino m.kind := by omega
  simpa [count, List.countP_pos_iff] using hcount

/-! ## The mirror follows the handles -/

namespace Opens

variable {w w' : Opens B}

/-- The mode of every inode counts its outstanding handles. -/
def Mirrors (w : Opens B) : Prop := ∀ ino, Counted w.handles ino (w.mirror.modes.lookup ino)

/-- A new handle enters the count. -/
theorem counted_append (hino : h.ino = ino) (hc : m.Covers h)
    (hold : Counted hs ino (if n = 0 then none else some (m.setOpens n))) :
    Counted (hs ++ [h]) ino (some (m.setOpens (n + 1))) :=
  ((counted_cons hino hc).mpr hold).perm (List.perm_append_singleton h hs).symm

theorem counted_append_other (hother : h.ino = ino → h.kind = .directIo)
    (hold : Counted hs ino o) : Counted (hs ++ [h]) ino o :=
  ((counted_cons_other hother).mpr hold).perm (List.perm_append_singleton h hs).symm

/-- The mirror with one more handle in the mode of `h`'s inode. -/
theorem Mirrors.append (hw : w.Mirrors) {k : Nat} (hc : m.Covers h)
    (hmode : w.mirror.modes.lookup h.ino = if n = 0 then none else some (m.setOpens n)) :
    Mirrors {
      mirror := { modes := w.mirror.modes.insert h.ino (m.setOpens (n + 1)) }
      allocated := k
      handles := w.handles ++ [h] } := by
  intro i
  show Counted (w.handles ++ [h]) i ((w.mirror.modes.insert h.ino _).lookup i)
  rw [AList.lookup_insert_eq_ite]
  split
  · rename_i hi
    subst hi
    exact counted_append rfl hc (hmode ▸ hw h.ino)
  · rename_i hi
    exact counted_append_other (fun heq => absurd heq.symm hi) (hw i)

/-- The first handle of a mode, and one more handle of a mode the inode has. -/
theorem Mirrors.append_first (hw : w.Mirrors) {k : Nat} (hc : m.Covers h)
    (hmode : w.mirror.modes.lookup h.ino = none) :
    Mirrors {
      mirror := { modes := w.mirror.modes.insert h.ino (m.setOpens 1) }
      allocated := k
      handles := w.handles ++ [h] } :=
  hw.append hc hmode

theorem Mirrors.append_more (hw : w.Mirrors) {k : Nat} (hc : m.Covers h)
    (hmode : w.mirror.modes.lookup h.ino = some m) :
    Mirrors {
      mirror := { modes := w.mirror.modes.insert h.ino (m.setOpens (m.opens + 1)) }
      allocated := k
      handles := w.handles ++ [h] } := by
  have hpos : m.opens ≠ 0 := by
    have hcount := hw h.ino
    rw [hmode] at hcount
    exact Nat.pos_iff_ne_zero.mp hcount.1
  apply hw.append hc
  rw [if_neg hpos, Mode.setOpens_opens, hmode]

/-- The mirror with one more handle that uses no mode. -/
theorem Mirrors.append_direct (hw : w.Mirrors) {k : Nat} (hd : h.kind = .directIo) :
    Mirrors { mirror := w.mirror, allocated := k, handles := w.handles ++ [h] } :=
  fun i => counted_append_other (fun _ => hd) (hw i)

/-! ## Adopting, opening and releasing -/

/-- The kinds of the adopted handles of `ino` do not mix. -/
theorem Mirrors.adopt (hw : w.Mirrors) {x : Nat × IoKind}
    (hall : ∀ h ∈ w.handles, h.adopted = true)
    (hheld : ∀ h ∈ w.handles, h.ino = x.1 → h.kind ≠ .directIo → x.2 ≠ .directIo → h.kind = x.2) :
    (w.adopt x).Mirrors := by
  obtain ⟨i, k⟩ := x
  have hmode := hw i
  cases k with
  | directIo => exact hw.append_direct rfl
  | cached =>
    unfold Opens.adopt InodeIoModes.adopt
    cases hl : w.mirror.modes.lookup i with
    | none => exact hw.append_first (m := .cached 1) rfl hl
    | some mode =>
      rw [hl] at hmode
      cases mode with
      | cached n => exact hw.append_more (m := .cached n) rfl hl
      | passthrough b f n =>
        obtain ⟨h, hh, hi, hk⟩ := exists_of_counted hmode
        exact absurd (hheld h hh hi (by rw [hk]; nofun) nofun) (by rw [hk]; nofun)
      | foreign n =>
        obtain ⟨h, hh, hi, hk⟩ := exists_of_counted hmode
        exact absurd (hheld h hh hi (by rw [hk]; nofun) nofun) (by rw [hk]; nofun)
  | passthrough =>
    unfold Opens.adopt InodeIoModes.adopt
    cases hl : w.mirror.modes.lookup i with
    | none => exact hw.append_first (m := .foreign 1) ⟨rfl, rfl⟩ hl
    | some mode =>
      rw [hl] at hmode
      cases mode with
      | foreign n => exact hw.append_more (m := .foreign n) ⟨rfl, rfl⟩ hl
      | passthrough b f n =>
        obtain ⟨h, hh, hi, hk⟩ := exists_of_counted hmode
        obtain hd | hc := hmode.2.2 h hh hi
        · rw [hk] at hd
          cases hd
        · exact absurd (hall h hh) (by rw [hc.2.1]; nofun)
      | cached n =>
        obtain ⟨h, hh, hi, hk⟩ := exists_of_counted hmode
        exact absurd (hheld h hh hi (by rw [hk]; nofun) nofun) (by rw [hk]; nofun)

theorem Mirrors.acquire (hw : w.Mirrors) {i : Nat} {passthrough : Option (Eligible B)}
    (hs : w.step (.acquire i passthrough) = some w') : w'.Mirrors := by
  have hstep : w' = {
      mirror := (w.mirror.acquire i passthrough w.allocated).2.2
      allocated := w.allocated + 1
      handles := w.handles ++
        [handleOf i passthrough (w.mirror.acquire i passthrough w.allocated).1] } :=
    (Option.some.inj hs).symm
  rw [hstep]
  unfold InodeIoModes.acquire
  cases hl : w.mirror.modes.lookup i with
  | none =>
    match passthrough with
    | none => exact hw.append_first (m := .cached 1) rfl hl
    | some (f, .error e) => exact hw.append_first (m := .cached 1) rfl hl
    | some (f, .ok b) =>
      exact hw.append_first (m := .passthrough ⟨w.allocated, b⟩ f 1) ⟨rfl, rfl, rfl⟩ hl
  | some mode =>
    cases mode with
    | cached n => exact hw.append_more (m := .cached n) rfl hl
    | foreign n => exact hw.append_direct rfl
    | passthrough b file n =>
      match passthrough with
      | none => exact hw.append_direct rfl
      | some (f, r) =>
        dsimp only
        split
        · rename_i hf
          subst hf
          exact hw.append_more (m := .passthrough b f n) ⟨rfl, rfl, rfl⟩ hl
        · exact hw.append_direct rfl

/-- What a release leaves counts what is left. -/
theorem counted_release {x : Handle B} (hall : ∀ i, Counted (x :: hs) i (w.mirror.modes.lookup i))
    (i : Nat) : Counted hs i ((w.mirror.release x.ino x.kind).modes.lookup i) := by
  have hx := hall x.ino
  unfold InodeIoModes.release
  cases hl : w.mirror.modes.lookup x.ino with
  | none =>
    rw [hl] at hx
    exact (counted_cons_other fun _ => hx x (by simp) rfl).mp (hall i)
  | some m =>
    rw [hl] at hx
    dsimp only
    by_cases hk : m.kind = x.kind
    · have hc : m.Covers x := by
        refine (hx.2.2 x (by simp) rfl).resolve_left fun hd => m.kind_ne_directIo ?_
        rw [hk, hd]
      obtain ⟨n, hn⟩ : ∃ n, m.opens = n + 1 := ⟨m.opens - 1, by have := hx.1; omega⟩
      -- The mode counts `x`; without it, it counts one less.
      have hrest : Counted hs x.ino (if n = 0 then none else some (m.setOpens n)) := by
        apply (counted_cons rfl hc).mp
        rw [← hn, Mode.setOpens_opens]
        exact hx
      rw [if_pos hk, hn, Nat.add_sub_cancel]
      have hother : i ≠ x.ino → Counted hs i (w.mirror.modes.lookup i) := fun hi =>
        (counted_cons_other fun heq => absurd heq.symm hi).mp (hall i)
      by_cases hzero : n = 0
      · rw [if_pos hzero] at hrest ⊢
        rw [AList.lookup_erase_eq_ite]
        split
        · rename_i hi
          exact hi ▸ hrest
        · rename_i hi
          exact hother hi
      · rw [if_neg hzero] at hrest ⊢
        rw [AList.lookup_insert_eq_ite]
        split
        · rename_i hi
          exact hi ▸ hrest
        · rename_i hi
          exact hother hi
    · rw [if_neg hk]
      refine (counted_cons_other fun _ => ?_).mp (hall i)
      exact (hx.2.2 x (by simp) rfl).resolve_right fun hc => hk hc.kind_eq.symm

theorem Mirrors.release (hw : w.Mirrors) {place : Nat} (hs : w.step (.release place) = some w') :
    w'.Mirrors := by
  simp only [Opens.step] at hs
  split at hs
  · rename_i x hx
    rw [← Option.some.inj hs]
    have hp : w.handles.Perm (x :: w.handles.eraseIdx place) := by
      obtain ⟨hlt, rfl⟩ := List.getElem?_eq_some_iff.mp hx
      exact (List.getElem_cons_eraseIdx_perm hlt).symm
    exact counted_release fun i => (hw i).perm hp
  · cases hs

theorem Mirrors.step (hw : w.Mirrors) {e : OpenEvent B} (hs : w.step e = some w') : w'.Mirrors := by
  cases e with
  | acquire i passthrough => exact hw.acquire hs
  | release place => exact hw.release hs

theorem Mirrors.steps {es : List (OpenEvent B)} :
    ∀ {w w' : Opens B}, w.Mirrors → w.steps es = some w' → w'.Mirrors := by
  induction es with
  | nil =>
    intro w w' hw hs
    exact Option.some.inj hs ▸ hw
  | cons e es ih =>
    intro w w' hw hs
    obtain ⟨v, hv, hrest⟩ := Option.bind_eq_some_iff.mp hs
    exact ih (hw.step hv) hrest

/-- A daemon starts with a mirror of what it inherits, as the kernel held it. -/
theorem mirrors_inherit (held : List (Nat × IoKind))
    (hheld : ∀ i, (i, IoKind.cached) ∈ held → (i, IoKind.passthrough) ∉ held) :
    (inherit held : Opens B).Mirrors := by
  suffices h : (inherit held : Opens B).Mirrors ∧
      (inherit held : Opens B).handles =
        held.map fun x => { ino := x.1, kind := x.2, adopted := true, backing := none } from h.1
  induction held using List.reverseRecOn with
  | nil => exact ⟨fun i x hx => absurd hx List.not_mem_nil, rfl⟩
  | append_singleton held x ih =>
    obtain ⟨hmirror, hhandles⟩ := ih fun i hc hp =>
      hheld i (List.mem_append_left _ hc) (List.mem_append_left _ hp)
    have hfold : (inherit (held ++ [x]) : Opens B) = (inherit held).adopt x := by
      simp [inherit, List.foldl_append]
    rw [hfold]
    refine ⟨hmirror.adopt ?_ ?_, ?_⟩
    · intro h hh
      rw [hhandles] at hh
      obtain ⟨y, -, rfl⟩ := List.mem_map.mp hh
      rfl
    · intro h hh hi hk hxk
      rw [hhandles] at hh
      obtain ⟨⟨i, k⟩, hy, rfl⟩ := List.mem_map.mp hh
      obtain ⟨j, l⟩ := x
      obtain rfl : i = j := hi
      have hmem : (i, k) ∈ held ++ [(i, l)] := List.mem_append_left _ hy
      have hlast : (i, l) ∈ held ++ [(i, l)] := by simp
      cases k <;> cases l
      all_goals first
        | rfl
        | exact absurd rfl hk
        | exact absurd rfl hxk
        | exact absurd hlast (hheld i hmem)
        | exact absurd hmem (hheld i hlast)
    · simp [Opens.adopt, hhandles]

/-! ## The kernel's rule -/

/-- Whether the kernel, which holds `hs`, takes an open of `ino` answered with `g`. -/
def Admits (hs : List (Handle B)) (ino : Nat) : IoGrant B → Prop
  | .directIo => True
  | .cached => ∀ h ∈ hs, h.ino = ino → h.kind ≠ .passthrough
  | .passthrough b => ∀ h ∈ hs, h.ino = ino → h.kind ≠ .cached ∧
      (h.kind = .passthrough → ∃ f, h.backing = some (b, f))

/-- A handle that uses a mode has one, and it covers the handle. -/
theorem Mirrors.covers (hw : w.Mirrors) {x : Handle B} (hx : x ∈ w.handles)
    (hk : x.kind ≠ .directIo) : ∃ m, w.mirror.modes.lookup x.ino = some m ∧ m.Covers x := by
  have hmode := hw x.ino
  cases hl : w.mirror.modes.lookup x.ino with
  | none =>
    rw [hl] at hmode
    exact absurd (hmode x hx rfl) hk
  | some m =>
    rw [hl] at hmode
    exact ⟨m, rfl, (hmode.2.2 x hx rfl).resolve_left hk⟩

/-- The mode of an inode with an adopted passthrough handle is `foreign`. -/
theorem Mirrors.foreign (hw : w.Mirrors) {x : Handle B} (hx : x ∈ w.handles)
    (hk : x.kind = .passthrough) (ha : x.adopted = true) :
    ∃ n, w.mirror.modes.lookup x.ino = some (.foreign n) := by
  obtain ⟨m, hl, hc⟩ := hw.covers hx (by rw [hk]; nofun)
  cases m with
  | passthrough b f n => exact absurd ha (by rw [hc.2.1]; nofun)
  | cached n => exact absurd (hk.symm.trans hc) nofun
  | foreign n => exact ⟨n, hl⟩

theorem Mirrors.admits (hw : w.Mirrors) (i : Nat) (passthrough : Option (Eligible B)) (ptr : Nat) :
    Admits w.handles i (w.mirror.acquire i passthrough ptr).1 := by
  have hmode := hw i
  unfold InodeIoModes.acquire
  cases hl : w.mirror.modes.lookup i with
  | none =>
    rw [hl] at hmode
    match passthrough with
    | none => exact fun h hh hi hp => by rw [hmode h hh hi] at hp; cases hp
    | some (f, .error e) => exact fun h hh hi hp => by rw [hmode h hh hi] at hp; cases hp
    | some (f, .ok b) =>
      intro h hh hi
      rw [hmode h hh hi]
      exact ⟨nofun, nofun⟩
  | some m =>
    rw [hl] at hmode
    cases m with
    | cached n =>
      intro h hh hi hp
      obtain hd | hc := hmode.2.2 h hh hi
      · rw [hd] at hp
        cases hp
      · exact absurd (hp.symm.trans hc) nofun
    | foreign n => exact trivial
    | passthrough b file n =>
      match passthrough with
      | none => exact trivial
      | some (f, r) =>
        dsimp only
        split
        · intro h hh hi
          obtain hd | hc := hmode.2.2 h hh hi
          · rw [hd]
            exact ⟨nofun, nofun⟩
          · rw [hc.1]
            exact ⟨nofun, fun _ => ⟨file, hc.2.2⟩⟩
        · exact trivial

/-- After any opens and releases that follow what a daemon inherited from the kernel: no inode has
    cached and passthrough handles at once, the passthrough handles granted here share one backing
    and one file, none is granted beside an inherited one, the stored count is that of the
    outstanding handles of the mode's kind, an inode without such handles has no mode, and the
    kernel takes the next open. -/
theorem outstanding_handles_fit_the_kernel (held : List (Nat × IoKind))
    (hheld : ∀ i, (i, IoKind.cached) ∈ held → (i, IoKind.passthrough) ∉ held)
    (es : List (OpenEvent B)) {w : Opens B} (hrun : (inherit held).steps es = some w) (i : Nat) :
    (∀ g ∈ w.handles, ∀ h ∈ w.handles, g.ino = i → h.ino = i →
      ¬ (g.kind = .cached ∧ h.kind = .passthrough)) ∧
    (∀ g ∈ w.handles, ∀ h ∈ w.handles, g.ino = i → h.ino = i →
      g.kind = .passthrough → h.kind = .passthrough → g.adopted = false → h.adopted = false →
      ∃ b f, g.backing = some (b, f) ∧ h.backing = some (b, f)) ∧
    (∀ h ∈ w.handles, h.ino = i → h.kind = .passthrough → h.adopted = true →
      ∀ passthrough ptr, (w.mirror.acquire i passthrough ptr).1.kind ≠ .passthrough) ∧
    (∀ m, w.mirror.modes.lookup i = some m → m.opens = count w.handles i m.kind) ∧
    ((∀ h ∈ w.handles, h.ino = i → h.kind = .directIo) → w.mirror.modes.lookup i = none) ∧
    ∀ passthrough ptr, Admits w.handles i (w.mirror.acquire i passthrough ptr).1 := by
  have hw : w.Mirrors := (mirrors_inherit held hheld).steps hrun
  refine ⟨?_, ?_, ?_, ?_, ?_, hw.admits i⟩
  · rintro g hg h hh rfl hi ⟨hgk, hhk⟩
    obtain ⟨m, hl, hgm⟩ := hw.covers hg (by rw [hgk]; nofun)
    obtain ⟨m', hl', hhm⟩ := hw.covers hh (by rw [hhk]; nofun)
    rw [hi, hl, Option.some.injEq] at hl'
    subst hl'
    have hsame := hgm.kind_eq.trans hhm.kind_eq.symm
    rw [hgk, hhk] at hsame
    cases hsame
  · intro g hg h hh hgi hhi hgk hhk hga hha
    obtain ⟨m, hl, hgm⟩ := hw.covers hg (by rw [hgk]; nofun)
    obtain ⟨m', hl', hhm⟩ := hw.covers hh (by rw [hhk]; nofun)
    rw [hhi, ← hgi, hl, Option.some.injEq] at hl'
    subst hl'
    cases m with
    | passthrough b f n => exact ⟨b, f, hgm.2.2, hhm.2.2⟩
    | cached n => exact absurd (hgk.symm.trans hgm) nofun
    | foreign n => exact absurd hgm.2 (by rw [hga]; nofun)
  · intro h hh hi hk ha passthrough ptr
    obtain ⟨n, hl⟩ := hw.foreign hh hk ha
    unfold InodeIoModes.acquire
    rw [← hi, hl]
    nofun
  · intro m hl
    have hmode := hw i
    rw [hl] at hmode
    exact hmode.2.1
  · intro hnone
    cases hl : w.mirror.modes.lookup i with
    | none => rfl
    | some m =>
      have hmode := hw i
      rw [hl] at hmode
      obtain ⟨h, hh, hi, hk⟩ := exists_of_counted hmode
      exact absurd (hk.symm.trans (hnone h hh hi)) m.kind_ne_directIo

/-- An inherited passthrough handle, an open beside it, and the inherited one released. -/
theorem open_beside_inherited_fits : ∃ w : Opens Nat,
    (inherit [(1, .passthrough)]).steps
      [.acquire 1 (some (⟨1, 9, 10, 5⟩, .ok 7)), .release 0,
        .acquire 1 (some (⟨1, 9, 10, 5⟩, .ok 7))] = some w ∧
      (∀ g ∈ w.handles, ∀ h ∈ w.handles, g.ino = 1 → h.ino = 1 →
        ¬ (g.kind = .cached ∧ h.kind = .passthrough)) ∧
      w.handles.map (·.kind) = [.directIo, .passthrough] := by
  refine ⟨_, rfl, ?_, rfl⟩
  exact (outstanding_handles_fit_the_kernel [(1, .passthrough)] (by simp)
    [.acquire 1 (some (⟨1, 9, 10, 5⟩, .ok 7)), .release 0,
      .acquire 1 (some (⟨1, 9, 10, 5⟩, .ok 7))] rfl 1).1

end Opens

end IoMode

end Ncrs
