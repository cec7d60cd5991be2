import Mathlib.Data.List.AList

/-!
# Journals of first pre-images

A journal records, for each key written while it is open, the value the key had before its
first write: `record` keeps the first pre-image, as `entry(k).or_insert(v)` does. Undoing a
journal puts each recorded pre-image back into a map, key by key (`undo_apply`), and a
journal closed into the one below it keeps the older pre-image of every key, which is the
left-biased union of `AList`.

An observation of the map that a restored pre-image determines cannot tell undoing a merged
journal from undoing the two in turn (`obs_undo_union`), and a stack of journals keeps, for
each journal, the observation the map had when it was opened (`Snapshots`): opening a
journal, writing a recorded key, closing a journal into the one below and undoing the newest
all keep it.
-/

namespace Journal

variable {α β γ ω : Type*} [DecidableEq α]

/-- A journal: the first pre-image of each key written since it was opened. -/
abbrev Log (α β : Type*) := AList (fun _ : α => β)

/-- `entry(a).or_insert(b)`: record `b` unless `a` already has a pre-image. -/
def record (j : Log α β) (a : α) (b : β) : Log α β :=
  if a ∈ j then j else j.insert a b

/-- Put every pre-image of `j` back into `m` with `restore`, one entry at a time. -/
def undo (restore : β → Option γ → Option γ) (j : Log α β) (m : α → Option γ) :
    α → Option γ :=
  j.foldl (fun m a b => Function.update m a (restore b (m a))) m

section Record

theorem lookup_record_self (j : Log α β) (a : α) (b : β) :
    (record j a b).lookup a = some ((j.lookup a).getD b) := by
  unfold record
  by_cases ha : a ∈ j
  · obtain ⟨c, hc⟩ := Option.isSome_iff_exists.1 (AList.lookup_isSome.2 ha)
    simp [ha, hc]
  · simp [ha, AList.lookup_eq_none.2 ha]

theorem lookup_record_ne (j : Log α β) {a a' : α} (b : β) (h : a' ≠ a) :
    (record j a b).lookup a' = j.lookup a' := by
  unfold record
  split_ifs
  · rfl
  · exact AList.lookup_insert_ne h

theorem record_of_mem {j : Log α β} {a : α} (b : β) (h : a ∈ j) : record j a b = j := by
  simp [record, h]

theorem mem_record (j : Log α β) (a : α) (b : β) : a ∈ record j a b := by
  unfold record
  split_ifs with h
  · exact h
  · exact (AList.mem_insert j).2 (Or.inl rfl)

end Record

section Undo

variable (restore : β → Option γ → Option γ)

/-- The fold over the entries of a list with distinct keys, key by key. -/
theorem foldl_update_apply : ∀ (l : List (Sigma fun _ : α => β)), l.NodupKeys →
    ∀ (m : α → Option γ) (a : α),
      l.foldl (fun m e => Function.update m e.1 (restore e.2 (m e.1))) m a =
        match l.dlookup a with
        | some b => restore b (m a)
        | none => m a
  | [], _, m, a => rfl
  | ⟨k, b⟩ :: t, hnd, m, a => by
    have ht : t.NodupKeys := (List.nodupKeys_cons.1 hnd).2
    have hk : k ∉ t.keys := (List.nodupKeys_cons.1 hnd).1
    rw [List.foldl_cons, foldl_update_apply t ht]
    by_cases hak : a = k
    · subst hak
      simp [List.dlookup_cons_eq, List.dlookup_eq_none.2 hk]
    · simp [List.dlookup_cons_ne t ⟨k, b⟩ hak, Function.update_of_ne hak]

/-- Undoing reads back key by key: a recorded key gets its pre-image restored, the others
keep their value. -/
theorem undo_apply (j : Log α β) (m : α → Option γ) (a : α) :
    undo restore j m a = match j.lookup a with
      | some b => restore b (m a)
      | none => m a :=
  foldl_update_apply restore j.entries j.nodupKeys m a

end Undo

/-! ## Observations a pre-image determines -/

section Observe

variable (restore : β → Option γ → Option γ) (obs : α → Option γ → ω)
  (good : α → Option γ → Prop) (goodPre : α → β → Prop) (pre : α → β → ω)

/-- The observation a key has after its pre-image is put back is the pre-image's own,
whatever the key held, and putting a good pre-image back over a good value is good. -/
structure Determines : Prop where
  obs_restore : ∀ a b x, good a x → goodPre a b → obs a (restore b x) = pre a b
  good_restore : ∀ a b x, good a x → goodPre a b → good a (restore b x)

/-- Every pre-image a journal holds is good. -/
def GoodLog (j : Log α β) : Prop := ∀ a b, j.lookup a = some b → goodPre a b

/-- Every value a map holds is good. -/
def GoodMap (m : α → Option γ) : Prop := ∀ a, good a (m a)

variable {restore obs good goodPre pre}

theorem good_undo (hd : Determines restore obs good goodPre pre) {j : Log α β}
    {m : α → Option γ} (hj : GoodLog goodPre j) (hm : GoodMap good m) :
    GoodMap good (undo restore j m) := by
  intro a
  rw [undo_apply]
  cases hl : j.lookup a with
  | none => exact hm a
  | some b => exact hd.good_restore a b (m a) (hm a) (hj a b hl)

theorem obs_undo (hd : Determines restore obs good goodPre pre) {j : Log α β}
    {m : α → Option γ} (hj : GoodLog goodPre j) (hm : GoodMap good m) (a : α) :
    obs a (undo restore j m a) = match j.lookup a with
      | some b => pre a b
      | none => obs a (m a) := by
  rw [undo_apply]
  cases hl : j.lookup a with
  | none => rfl
  | some b => exact hd.obs_restore a b (m a) (hm a) (hj a b hl)

/-- Undoing one journal over maps that look the same gives maps that look the same. -/
theorem obs_undo_congr (hd : Determines restore obs good goodPre pre) {j : Log α β}
    {m m' : α → Option γ} (hj : GoodLog goodPre j) (hm : GoodMap good m)
    (hm' : GoodMap good m') (h : ∀ a, obs a (m a) = obs a (m' a)) (a : α) :
    obs a (undo restore j m a) = obs a (undo restore j m' a) := by
  rw [obs_undo hd hj hm, obs_undo hd hj hm']
  cases j.lookup a with
  | none => exact h a
  | some b => rfl

theorem goodMap_update {m : α → Option γ} {a : α} {x : Option γ} (hm : GoodMap good m)
    (hx : good a x) : GoodMap good (Function.update m a x) := by
  intro b
  by_cases hb : b = a
  · subst hb
    rw [Function.update_self]
    exact hx
  · rw [Function.update_of_ne hb]
    exact hm b

theorem goodLog_empty : GoodLog goodPre (∅ : Log α β) := by
  intro a b h
  rw [AList.lookup_empty] at h
  cases h

theorem goodLog_record {j : Log α β} {a : α} {b : β} (hj : GoodLog goodPre j) (hb : goodPre a b) :
    GoodLog goodPre (record j a b) := by
  intro a' b' h
  by_cases haa : a' = a
  · subst haa
    rw [lookup_record_self] at h
    cases hl : j.lookup a' with
    | none =>
      rw [hl, Option.getD_none, Option.some.injEq] at h
      exact h ▸ hb
    | some c =>
      rw [hl, Option.getD_some, Option.some.injEq] at h
      exact h ▸ hj a' c hl
  · rw [lookup_record_ne j b haa] at h
    exact hj a' b' h

theorem goodLog_union {p c : Log α β} (hp : GoodLog goodPre p) (hc : GoodLog goodPre c) :
    GoodLog goodPre (p ∪ c) := by
  intro a b h
  by_cases ha : a ∈ p
  · rw [AList.lookup_union_left ha] at h
    exact hp a b h
  · rw [AList.lookup_union_right ha] at h
    exact hc a b h

/-- Closing journal `c` into `p` below it: undoing the union looks like undoing `c` and then
`p`, since `p`'s older pre-image wins on the keys both record. -/
theorem obs_undo_union (hd : Determines restore obs good goodPre pre) {p c : Log α β}
    {m : α → Option γ} (hp : GoodLog goodPre p) (hc : GoodLog goodPre c) (hm : GoodMap good m)
    (a : α) :
    obs a (undo restore (p ∪ c) m a) = obs a (undo restore p (undo restore c m) a) := by
  rw [obs_undo hd (goodLog_union hp hc) hm, obs_undo hd hp (good_undo hd hc hm),
    obs_undo hd hc hm]
  by_cases ha : a ∈ p
  · obtain ⟨b, hb⟩ := Option.isSome_iff_exists.1 (AList.lookup_isSome.2 ha)
    rw [AList.lookup_union_left ha, hb]
  · rw [AList.lookup_union_right ha, AList.lookup_eq_none.2 ha]

end Observe

/-! ## A stack of journals and the snapshots it keeps -/

section Snapshots

variable (restore : β → Option γ → Option γ) (obs : α → Option γ → ω)

/-- The stack `js` (newest first) over the map `m` keeps the snapshots `gs`: undoing the
journals down to each one gives the observation of the map when that journal was opened. -/
def Snapshots : (α → Option γ) → List (Log α β) → List (α → ω) → Prop
  | _, [], [] => True
  | m, j :: js, g :: gs =>
    (∀ a, obs a (undo restore j m a) = g a) ∧ Snapshots (undo restore j m) js gs
  | _, _, _ => False

variable {restore obs} {good : α → Option γ → Prop} {goodPre : α → β → Prop}
  {pre : α → β → ω}

theorem Snapshots.length_eq : ∀ {m : α → Option γ} {js : List (Log α β)}
    {gs : List (α → ω)}, Snapshots restore obs m js gs → js.length = gs.length
  | _, [], [], _ => rfl
  | _, _ :: _, _ :: _, h => congrArg (· + 1) (Snapshots.length_eq h.2)

/-- Maps that look the same keep the same snapshots. -/
theorem Snapshots.congr (hd : Determines restore obs good goodPre pre) :
    ∀ {m m' : α → Option γ} {js : List (Log α β)} {gs : List (α → ω)},
      (∀ j ∈ js, GoodLog goodPre j) → GoodMap good m → GoodMap good m' →
      (∀ a, obs a (m a) = obs a (m' a)) →
      Snapshots restore obs m js gs → Snapshots restore obs m' js gs
  | _, _, [], [], _, _, _, _, _ => trivial
  | m, m', j :: js, g :: gs, hjs, hm, hm', h, ⟨hg, hrest⟩ => by
    have hj := hjs j List.mem_cons_self
    refine ⟨fun a => (obs_undo_congr hd hj hm hm' h a).symm.trans (hg a), ?_⟩
    exact Snapshots.congr hd (fun j' hj' => hjs j' (List.mem_cons_of_mem j hj'))
      (good_undo hd hj hm) (good_undo hd hj hm') (obs_undo_congr hd hj hm hm' h) hrest
  | _, _, [], _ :: _, _, _, _, _, h => h.elim
  | _, _, _ :: _, [], _, _, _, _, h => h.elim

/-- Opening a journal takes a snapshot of the map. -/
theorem Snapshots.push {m : α → Option γ} {js : List (Log α β)} {gs : List (α → ω)}
    (h : Snapshots restore obs m js gs) :
    Snapshots restore obs m (∅ :: js) ((fun a => obs a (m a)) :: gs) :=
  ⟨fun _ => rfl, h⟩

/-- Undoing the newest journal gives back its snapshot, and the stack below keeps the
others. -/
theorem Snapshots.pop {m : α → Option γ} {j : Log α β} {js : List (Log α β)} {g : α → ω}
    {gs : List (α → ω)} (h : Snapshots restore obs m (j :: js) (g :: gs)) :
    (∀ a, obs a (undo restore j m a) = g a) ∧ Snapshots restore obs (undo restore j m) js gs :=
  h

/-- Closing the newest journal into the one below keeps the older snapshot. -/
theorem Snapshots.union (hd : Determines restore obs good goodPre pre) {m : α → Option γ}
    {c p : Log α β} {js : List (Log α β)} {g h : α → ω} {gs : List (α → ω)}
    (hjs : ∀ j ∈ c :: p :: js, GoodLog goodPre j) (hm : GoodMap good m)
    (hs : Snapshots restore obs m (c :: p :: js) (g :: h :: gs)) :
    Snapshots restore obs m ((p ∪ c) :: js) (h :: gs) := by
  obtain ⟨-, hh, hrest⟩ := hs
  have hc := hjs c List.mem_cons_self
  have hp := hjs p (List.mem_cons_of_mem c List.mem_cons_self)
  have heq := obs_undo_union hd hp hc hm
  refine ⟨fun a => (heq a).trans (hh a), ?_⟩
  exact Snapshots.congr hd (fun j hj => hjs j (List.mem_cons_of_mem c (List.mem_cons_of_mem p hj)))
    (good_undo hd hp (good_undo hd hc hm)) (good_undo hd (goodLog_union hp hc) hm)
    (fun a => (heq a).symm) hrest

/-- A write to a key the newest journal has recorded changes no snapshot. -/
theorem Snapshots.write_of_mem (hd : Determines restore obs good goodPre pre)
    {m : α → Option γ} {j : Log α β} {js : List (Log α β)} {gs : List (α → ω)} {a : α}
    (x : Option γ) (hjs : ∀ j' ∈ j :: js, GoodLog goodPre j') (hm : GoodMap good m)
    (hx : good a x) (ha : a ∈ j) (hs : Snapshots restore obs m (j :: js) gs) :
    Snapshots restore obs (Function.update m a x) (j :: js) gs := by
  cases gs with
  | nil => exact hs.elim
  | cons g gs =>
    have hj := hjs j List.mem_cons_self
    have hm' : GoodMap good (Function.update m a x) := goodMap_update hm hx
    have heq : ∀ b, obs b (undo restore j m b) = obs b (undo restore j (Function.update m a x) b) := by
      intro b
      rw [obs_undo hd hj hm, obs_undo hd hj hm']
      by_cases hb : b = a
      · subst hb
        obtain ⟨c, hc⟩ := Option.isSome_iff_exists.1 (AList.lookup_isSome.2 ha)
        rw [hc]
      · rw [Function.update_of_ne hb]
    refine ⟨fun b => (heq b).symm.trans (hs.1 b), ?_⟩
    exact Snapshots.congr hd (fun j' hj' => hjs j' (List.mem_cons_of_mem j hj'))
      (good_undo hd hj hm) (good_undo hd hj hm') heq hs.2

/-- Recording the pre-image of a key in the newest journal changes no snapshot, when the
pre-image looks like what the key holds. -/
theorem Snapshots.record_pre (hd : Determines restore obs good goodPre pre)
    {m : α → Option γ} {j : Log α β} {js : List (Log α β)} {gs : List (α → ω)} {a : α}
    {b : β} (hjs : ∀ j' ∈ j :: js, GoodLog goodPre j') (hm : GoodMap good m)
    (hb : goodPre a b) (hpre : pre a b = obs a (m a))
    (hs : Snapshots restore obs m (j :: js) gs) :
    Snapshots restore obs m (record j a b :: js) gs := by
  by_cases ha : a ∈ j
  · rwa [record_of_mem b ha]
  cases gs with
  | nil => exact hs.elim
  | cons g gs =>
    have hj := hjs j List.mem_cons_self
    have hj' : GoodLog goodPre (record j a b) := goodLog_record hj hb
    have heq : ∀ a', obs a' (undo restore j m a') = obs a' (undo restore (record j a b) m a') := by
      intro a'
      rw [obs_undo hd hj hm, obs_undo hd hj' hm]
      by_cases haa : a' = a
      · subst haa
        rw [lookup_record_self, AList.lookup_eq_none.2 ha, Option.getD_none]
        exact hpre.symm
      · rw [lookup_record_ne j b haa]
    refine ⟨fun a' => (heq a').symm.trans (hs.1 a'), ?_⟩
    exact Snapshots.congr hd (fun j' hj'' => hjs j' (List.mem_cons_of_mem j hj''))
      (good_undo hd hj hm) (good_undo hd hj' hm) heq hs.2

end Snapshots

end Journal
