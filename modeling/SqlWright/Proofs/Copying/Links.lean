import SqlWright.Dom.Node

/-!
# Actions on the links of a node

Replacing the links of a node by the results of an action runs the action on the children from
the first to the last, and does nothing else. `Node.visits_mapM` says so: the state afterwards is
that of the run over the list of the children, and the node that comes out has the results for
links and the payload of the node that went in. By `Node.eq_of_payload` this says which node it
is.
-/

namespace SqlWright

variable {α β γ δ σ : Type}

/-- A run and the one that goes on from its result and its state. -/
theorem run_andThen (m : StateM σ γ) (k : γ → StateM σ δ) (s : σ) :
    (m >>= k).run s = (k (m.run s).1).run (m.run s).2 := rfl

/-- A run acts on links from the first to the last, and its result is made of what comes of
them. -/
def Visits (f : α → StateM σ β) (links : List α) (m : StateM σ γ) (made : List β → γ → Prop) :
    Prop :=
  ∀ s, (m.run s).2 = ((links.mapM f).run s).2 ∧ made ((links.mapM f).run s).1 (m.run s).1

namespace Visits

variable {f : α → StateM σ β} {links links' : List α} {made : List β → γ → Prop}

theorem pure {c : γ} (h : made [] c) : Visits f [] (pure c) made := by
  intro s
  rw [List.mapM_nil]
  exact ⟨rfl, h⟩

theorem link (a : α) : Visits f [a] (f a) fun bs b ↦ bs = [b] := by
  intro s
  rw [List.mapM_cons, List.mapM_nil]
  exact ⟨rfl, rfl⟩

theorem imp {m : StateM σ γ} {made' : List β → γ → Prop} (hm : Visits f links m made)
    (h : ∀ bs c, made bs c → made' bs c) : Visits f links m made' := by
  intro s
  exact ⟨(hm s).1, h _ _ (hm s).2⟩

/-- One run after another acts on the links of the first and then on those of the second. -/
theorem bind {m : StateM σ γ} {k : γ → StateM σ δ} {made' : List β → δ → Prop}
    (hm : Visits f links m made)
    (hk : ∀ bs c, made bs c → Visits f links' (k c) fun bs' d ↦ made' (bs ++ bs') d) :
    Visits f (links ++ links') (m >>= k) made' := by
  intro s
  have first := hm s
  have second := hk _ _ first.2 (m.run s).2
  rw [List.mapM_append, run_andThen, run_andThen, run_andThen, ← first.1]
  exact second

/-- What is made of the result of a run is made of what comes of the same links. -/
theorem map {m : StateM σ γ} {g : γ → δ} {made' : List β → δ → Prop}
    (hm : Visits f links m made) (h : ∀ bs c, made bs c → made' bs (g c)) :
    Visits f links (m >>= fun c ↦ Pure.pure (g c)) made' := by
  intro s
  exact ⟨(hm s).1, h _ _ (hm s).2⟩

/-- A run over parts acts on the links of the parts, and keeps what each part holds besides. -/
theorem parts {ε : Type} {part : γ → StateM σ δ} {linksOf : γ → List α} {linksOf' : δ → List β}
    {rest : γ → ε} {rest' : δ → ε}
    (hpart : ∀ c, Visits f (linksOf c) (part c) fun bs d ↦ linksOf' d = bs ∧ rest' d = rest c)
    (cs : List γ) :
    Visits f (cs.flatMap linksOf) (cs.mapM part)
      fun bs ds ↦ ds.flatMap linksOf' = bs ∧ ds.map rest' = cs.map rest := by
  induction cs with
  | nil =>
    rw [List.mapM_nil]
    exact pure ⟨rfl, rfl⟩
  | cons c cs ih =>
    rw [List.mapM_cons, List.flatMap_cons]
    apply (hpart c).bind
    intro bs d hd
    apply ih.map
    intro bs' ds hds
    rw [List.flatMap_cons, hd.1, hds.1, List.map_cons, List.map_cons, hd.2, hds.2]
    exact ⟨rfl, rfl⟩

end Visits

/-- What a node holds besides its links, and how many links stand in each of its places. -/
def Node.payload (n : Node α) : Node Unit := n.map fun _ ↦ ()

theorem Node.payload_map (f : α → β) (n : Node α) : (n.map f).payload = n.payload :=
  n.map_map f fun _ ↦ ()

/-- The payload of a node tells its kind. -/
theorem Node.kind_eq_of_payload {n : Node α} {m : Node β} (h : n.payload = m.payload) :
    n.kind = m.kind := by
  rw [← kind_map (fun _ ↦ ()) n, ← kind_map (fun _ ↦ ()) m]
  exact congrArg kind h

/-! ### Links in the order of the children -/

section Visits

variable {f : α → StateM σ β}

private theorem visits_option (o : Option α) :
    Visits f o.toList (o.mapM f) fun bs o' ↦
      o'.toList = bs ∧ o'.map (fun _ ↦ ()) = o.map fun _ ↦ () := by
  cases o with
  | none => exact .pure ⟨rfl, rfl⟩
  | some a =>
    rw [Option.mapM_some, ← bind_pure_comp]
    apply (Visits.link a).map
    intro bs b hb
    exact ⟨hb.symm, rfl⟩

private theorem visits_links (l : List α) :
    Visits f l (l.mapM f) fun bs l' ↦
      bs = l' ∧ l'.map (fun _ ↦ ()) = l.map fun _ ↦ () := by
  have link (a : α) : Visits f [a] (f a) fun bs b ↦ [b] = bs ∧ () = () :=
    (Visits.link a).imp fun bs b hb ↦ ⟨hb.symm, rfl⟩
  simpa [eq_comm] using Visits.parts link l

private theorem visits_keys (ks : List (SortKey α)) :
    Visits f (ks.map (·.expr)) (ks.mapM (·.mapM f)) fun bs ks' ↦
      ks'.map (·.expr) = bs ∧ ks'.map (·.map fun _ ↦ ()) = ks.map (·.map fun _ ↦ ()) := by
  have key (k : SortKey α) : Visits f [k.expr] (k.mapM f) fun bs k' ↦
      [k'.expr] = bs ∧ k'.map (fun _ ↦ ()) = k.map fun _ ↦ () := by
    unfold SortKey.mapM
    apply (Visits.link k.expr).map
    intro bs b hb
    exact ⟨hb.symm, rfl⟩
  simpa [← List.map_eq_flatMap] using Visits.parts key ks

private theorem visits_columns (cs : List (OutputColumn α)) :
    Visits f (cs.map (·.expr)) (cs.mapM (·.mapM f)) fun bs cs' ↦
      cs'.map (·.expr) = bs ∧ cs'.map (·.map fun _ ↦ ()) = cs.map (·.map fun _ ↦ ()) := by
  have column (c : OutputColumn α) : Visits f [c.expr] (c.mapM f) fun bs c' ↦
      [c'.expr] = bs ∧ c'.map (fun _ ↦ ()) = c.map fun _ ↦ () := by
    unfold OutputColumn.mapM
    apply (Visits.link c.expr).map
    intro bs b hb
    exact ⟨hb.symm, rfl⟩
  simpa [← List.map_eq_flatMap] using Visits.parts column cs

private theorem visits_branches (bs : List (α × α)) :
    Visits f (bs.flatMap fun b ↦ [b.1, b.2]) (bs.mapM fun b ↦ return (← f b.1, ← f b.2))
      fun ls bs' ↦ bs'.flatMap (fun b ↦ [b.1, b.2]) = ls ∧
        bs'.map (fun _ ↦ ((), ())) = bs.map fun _ ↦ ((), ()) := by
  have branch (b : α × α) : Visits f [b.1, b.2] (do return (← f b.1, ← f b.2)) fun ls b' ↦
      [b'.1, b'.2] = ls ∧ ((), ()) = ((), ()) :=
    (Visits.link b.1).bind fun ls x hx ↦ (Visits.link b.2).map fun ls' y hy ↦ by
      rw [hx, hy]
      exact ⟨rfl, rfl⟩
  exact Visits.parts branch bs

private theorem visits_assignments (as : List (String × α)) :
    Visits f (as.map (·.2)) (as.mapM fun a ↦ return (a.1, ← f a.2)) fun bs as' ↦
      as'.map (·.2) = bs ∧ as'.map (fun a ↦ (a.1, ())) = as.map fun a ↦ (a.1, ()) := by
  have assignment (a : String × α) : Visits f [a.2] (do return (a.1, ← f a.2)) fun bs a' ↦
      [a'.2] = bs ∧ (a'.1, ()) = (a.1, ()) :=
    (Visits.link a.2).map fun bs b hb ↦ ⟨hb.symm, rfl⟩
  simpa [← List.map_eq_flatMap] using Visits.parts assignment as

private theorem Select.visits_mapM (x : Select α) :
    Visits f x.children (x.mapM f) fun bs x' ↦
      x'.children = bs ∧ x'.map (fun _ ↦ ()) = x.map fun _ ↦ () := by
  simp only [Select.children, Select.exprs, List.append_assoc]
  refine (visits_columns x.columns).bind fun _ _ h₁ ↦ (visits_option x.source).bind fun _ _ h₂ ↦
    (visits_option x.filter).bind fun _ _ h₃ ↦ (visits_links x.groupBy).bind fun _ _ h₄ ↦
    (visits_option x.having).bind fun _ _ h₅ ↦ (visits_keys x.orderBy).bind fun _ _ h₆ ↦
    (visits_option x.limit).bind fun _ _ h₇ ↦ (visits_option x.offset).map fun _ _ h₈ ↦ ?_
  simp only [Select.map, h₁, h₂, h₃, h₄, h₅, h₆, h₇, h₈]
  trivial

/-- Replacing the links of a node acts on its children from the first to the last. The node that
comes out has the results for links, and the payload of the node that went in. -/
theorem Node.visits_mapM (n : Node α) :
    Visits f n.children (n.mapM f) fun bs n' ↦ n'.children = bs ∧ n'.payload = n.payload := by
  cases n with
  | binary op a b | variant key a b =>
    exact (Visits.link a).bind fun _ _ h₁ ↦ (Visits.link b).map fun _ _ h₂ ↦ by
      rw [h₁, h₂]
      exact ⟨rfl, rfl⟩
  | unary op a | cast a type | subquery a | queryRef a label =>
    exact (Visits.link a).map fun _ _ h ↦ by
      rw [h]
      exact ⟨rfl, rfl⟩
  | function _ args | row args =>
    exact (visits_links args).map fun _ _ h ↦ by
      simp only [children, payload, map, h.2]
      exact ⟨h.1.symm, trivial⟩
  | aggregate kind distinct operand =>
    exact (visits_option operand).map fun _ _ h ↦ by
      simp only [children, payload, map, h.2]
      exact ⟨h.1, trivial⟩
  | case branches otherwise =>
    exact (visits_branches branches).bind fun _ _ h₁ ↦ (visits_option otherwise).map fun _ _ h₂ ↦ by
      simp only [children, payload, map, h₁, h₂]
      trivial
  | dynamicFilter id first others =>
    exact (Visits.link first).bind fun _ _ h₁ ↦ (visits_links others).map fun _ _ h₂ ↦ by
      simp only [children, payload, map, h₁, h₂]
      exact ⟨rfl, trivial⟩
  | rowNumber keys =>
    exact (visits_keys keys).map fun _ _ h ↦ by
      simp only [children, payload, map, h.2]
      exact ⟨h.1, trivial⟩
  | join kind a b on =>
    exact (Visits.link a).bind fun _ _ h₁ ↦ (Visits.link b).bind fun _ _ h₂ ↦
      (visits_option on).map fun _ _ h₃ ↦ by
      simp only [children, payload, map, h₁, h₂, h₃]
      trivial
  | select x =>
    exact x.visits_mapM.map fun _ _ h ↦ by
      simp only [children, payload, map, h.2]
      exact ⟨h.1, trivial⟩
  | insert target columns values =>
    exact (Visits.link target).bind fun _ _ h₁ ↦ (visits_links values).map fun _ _ h₂ ↦ by
      simp only [children, payload, map, h₁, h₂]
      exact ⟨rfl, trivial⟩
  | update target assignments filter =>
    exact (Visits.link target).bind fun _ _ h₁ ↦ (visits_assignments assignments).bind fun _ _ h₂ ↦
      (visits_option filter).map fun _ _ h₃ ↦ by
      simp only [children, payload, map, h₁, h₂, h₃]
      trivial
  | delete target filter =>
    exact (Visits.link target).bind fun _ _ h₁ ↦ (visits_option filter).map fun _ _ h₂ ↦ by
      simp only [children, payload, map, h₁, h₂]
      trivial
  | _ => exact .pure ⟨rfl, rfl⟩

end Visits

/-! ### Nodes from their links -/

section Payload

/-- Lists of parts are equal if the links of the parts are, and what each holds besides. -/
private theorem parts_ext {ε : Type} {link : γ → α} {rest : γ → ε} {cs ds : List γ}
    (hpart : ∀ c d, link c = link d → rest c = rest d → c = d)
    (hl : cs.map link = ds.map link) (hr : cs.map rest = ds.map rest) : cs = ds := by
  induction cs generalizing ds with
  | nil =>
    cases ds with
    | nil => rfl
    | cons d ds => cases hr
  | cons c cs ih =>
    cases ds with
    | nil => cases hr
    | cons d ds =>
      rw [List.map_cons, List.map_cons, List.cons.injEq] at hr hl
      rw [hpart c d hl.1 hr.1, ih hl.2 hr.2]

private theorem keys_ext {ks ls : List (SortKey α)} (hl : ks.map (·.expr) = ls.map (·.expr))
    (hr : ks.map (·.map fun _ ↦ ()) = ls.map (·.map fun _ ↦ ())) : ks = ls := by
  apply parts_ext _ hl hr
  rintro ⟨a, _, _⟩ ⟨b, _, _⟩ hab h
  cases hab
  cases h
  rfl

private theorem columns_ext {cs ds : List (OutputColumn α)}
    (hl : cs.map (·.expr) = ds.map (·.expr))
    (hr : cs.map (·.map fun _ ↦ ()) = ds.map (·.map fun _ ↦ ())) : cs = ds := by
  apply parts_ext _ hl hr
  rintro ⟨a, _⟩ ⟨b, _⟩ hab h
  cases hab
  cases h
  rfl

private theorem assignments_ext {as bs : List (String × α)} (hl : as.map (·.2) = bs.map (·.2))
    (hr : as.map (fun a ↦ (a.1, ())) = bs.map fun b ↦ (b.1, ())) : as = bs := by
  apply parts_ext _ hl hr
  rintro ⟨x, a⟩ ⟨y, b⟩ hab h
  cases hab
  cases h
  rfl

private theorem branches_ext {bs cs : List (α × α)}
    (hl : bs.flatMap (fun b ↦ [b.1, b.2]) = cs.flatMap fun c ↦ [c.1, c.2]) : bs = cs := by
  induction bs generalizing cs with
  | nil => cases cs <;> simp_all
  | cons b bs ih =>
    cases cs with
    | nil => simp at hl
    | cons c cs =>
      simp only [List.flatMap_cons, List.cons_append, List.nil_append, List.cons.injEq] at hl
      rw [Prod.ext hl.1 hl.2.1, ih hl.2.2]

private theorem option_ext {o o' : Option α} (hl : o.toList = o'.toList) : o = o' := by
  cases o <;> cases o' <;> simp_all

private theorem length_toList {o o' : Option α} (hr : o.map (fun _ ↦ ()) = o'.map fun _ ↦ ()) :
    o.toList.length = o'.toList.length := by
  cases o <;> cases o' <;> simp_all

private theorem length_links {ε : Type} {link : γ → α} {rest : γ → ε} {cs ds : List γ}
    (hr : cs.map rest = ds.map rest) : (cs.map link).length = (ds.map link).length := by
  have h := congrArg List.length hr
  rwa [List.length_map, List.length_map] at h ⊢

private theorem Select.eq_of_payload {x y : Select α}
    (hp : x.map (fun _ ↦ ()) = y.map fun _ ↦ ()) (hc : x.children = y.children) : x = y := by
  simp only [Select.map, mk.injEq] at hp
  obtain ⟨distinct, columns, source, filter, groupBy, having, orderBy, limit, offset, lock⟩ := hp
  simp only [Select.children, exprs, List.append_assoc] at hc
  obtain ⟨h₁, hc⟩ := List.append_inj hc (length_links columns)
  obtain ⟨h₂, hc⟩ := List.append_inj hc (length_toList source)
  obtain ⟨h₃, hc⟩ := List.append_inj hc (length_toList filter)
  obtain ⟨h₄, hc⟩ := List.append_inj hc (by simpa using congrArg List.length groupBy)
  obtain ⟨h₅, hc⟩ := List.append_inj hc (length_toList having)
  obtain ⟨h₆, hc⟩ := List.append_inj hc (length_links orderBy)
  obtain ⟨h₇, h₈⟩ := List.append_inj hc (length_toList limit)
  cases x
  cases y
  simp only [mk.injEq]
  exact ⟨distinct, columns_ext h₁ columns, option_ext h₂, option_ext h₃, h₄, option_ext h₅,
    keys_ext h₆ orderBy, option_ext h₇, option_ext h₈, lock⟩

/-- A node is given by its payload and its links. -/
theorem Node.eq_of_payload {n m : Node α} (hp : n.payload = m.payload)
    (hc : n.children = m.children) : n = m := by
  have hk : n.kind = m.kind := kind_eq_of_payload hp
  simp only [payload] at hp
  cases n with
  | aggregate kind distinct operand =>
    cases m with
    | aggregate kind' distinct' operand' =>
      simp only [map, aggregate.injEq] at hp
      rw [hp.1, hp.2.1, option_ext hc]
    | _ => cases hk
  | case branches otherwise =>
    cases m with
    | case branches' otherwise' =>
      simp only [map, case.injEq] at hp
      obtain ⟨h₁, h₂⟩ := List.append_inj' hc (length_toList hp.2)
      rw [branches_ext h₁, option_ext h₂]
    | _ => cases hk
  | rowNumber keys =>
    cases m with
    | rowNumber keys' => rw [keys_ext hc (by simpa [map] using hp)]
    | _ => cases hk
  | join kind left right on =>
    cases m with
    | join kind' left' right' on' =>
      simp only [map, join.injEq] at hp
      simp only [children, List.cons.injEq] at hc
      rw [hp.1, hc.1, hc.2.1, option_ext hc.2.2]
    | _ => cases hk
  | select x =>
    cases m with
    | select y => rw [x.eq_of_payload (by simpa [map] using hp) hc]
    | _ => cases hk
  | update target assignments filter =>
    cases m with
    | update target' assignments' filter' =>
      simp only [map, update.injEq] at hp
      simp only [children, List.cons_append, List.cons.injEq] at hc
      obtain ⟨h₁, h₂⟩ := List.append_inj' hc.2 (length_toList hp.2.2)
      rw [hc.1, assignments_ext h₁ hp.2.1, option_ext h₂]
    | _ => cases hk
  | delete target filter =>
    cases m with
    | delete target' filter' =>
      simp only [children, List.cons.injEq] at hc
      rw [hc.1, option_ext hc.2]
    | _ => cases hk
  | _ => cases m <;> cases hk <;> simp_all [map, children]

/-- Two actions that come to the same on the children of a node come to the same on the node. -/
theorem Node.run_mapM_congr {f f' : α → StateM σ β} {n : Node α} {s : σ}
    (h : (n.children.mapM f).run s = (n.children.mapM f').run s) :
    (n.mapM f).run s = (n.mapM f').run s := by
  obtain ⟨state, links, payload⟩ := n.visits_mapM (f := f) s
  obtain ⟨state', links', payload'⟩ := n.visits_mapM (f := f') s
  apply Prod.ext
  · apply eq_of_payload (payload.trans payload'.symm)
    rw [links, links', h]
  · rw [state, state', h]

end Payload

end SqlWright
