/-
  CandidateSearch/Proofs/Declarative/Placing.lean
  ===============================================
  **The schedule of a method of the plain kind.**

  In a plain method every variable has one writer.  If nothing depends on itself and no
  test depends on a constraint that stands after it, then no statement of the schedule
  reads what it writes itself or what is written after it (`not_dependsOn_later`).

  For a writer that can be brought forward this is the order that scheduling aims at.  A
  constraint is never brought forward; what stands in front of it is there because a test
  up to it in the source has asked for it.
-/
import CandidateSearch.Proofs.Declarative.Enumeration
import CandidateSearch.Proofs.Schedule.BeforeTests

namespace CandidateSearch

open Relation (TransGen ReflTransGen)

namespace Schedule

variable {entries before after : List Entry} {e w : Entry}

/-- Two places of one entry in an order are the same place. -/
theorem mem_front_of_later {l front rest : List Entry} (hnodup : l.Nodup)
    (h : l = before ++ e :: after) (hw : w ∈ after) (h' : l = front ++ w :: rest) : e ∈ front := by
  obtain ⟨first, last, rfl⟩ := List.append_of_mem hw
  have hsame : (before ++ e :: first) ++ w :: last = front ++ w :: rest := by
    rw [← h', h]
    simp
  have hnodup' : ((before ++ e :: first) ++ w :: last).Nodup := by
    rw [hsame, ← h']
    exact hnodup
  have hnot : w ∉ before ++ e :: first := fun hmem =>
    (List.nodup_append.mp hnodup').2.2 w hmem w (by simp) rfl
  have hnot' : w ∉ last := (List.nodup_cons.mp (List.nodup_append.mp hnodup').2.1).1
  obtain ⟨rfl, -, -⟩ := (List.append_cons_inj_of_notMem hnot hnot').mp hsame
  simp

/-- **Nothing that an entry depends on comes later.** -/
theorem not_dependsOn_later (hsorted : (entries.map (·.index)).Pairwise (· < ·))
    (hguards : ∀ e ∈ entries, e.guard = false) (hsingle : Single entries)
    (hacyclic : ∀ e, ¬ TransGen (DependsAmong entries) e e)
    (hfeeds : ∀ t ∈ entries, ∀ w ∈ entries, t.phase = .test → w.Feeds t → t.DependsOn w)
    (hlayered : ∀ t ∈ entries, ∀ c ∈ entries, t.phase = .test → c.phase = .test →
      t.index < c.index → ¬ TransGen (DependsAmong entries) t c)
    (horder : order entries = before ++ e :: after) : ∀ w ∈ e :: after, ¬ e.DependsOn w := by
  intro w hw hdepends
  have hnodup : (entries.map (·.index)).Nodup := hsorted.imp fun h => Nat.ne_of_lt h
  have hperm := order_perm hnodup
  have hdistinct : (order entries).Nodup := hperm.nodup_iff.mpr (hnodup.of_map _)
  have hemem : e ∈ entries := hperm.mem_iff.mp (by simp [horder])
  have hwmem : w ∈ entries := hperm.mem_iff.mp (by
    rw [horder]
    exact List.mem_append_right _ hw)
  have hstep : DependsAmong entries e w := ⟨hemem, hwmem, hdepends⟩
  by_cases hphase : w.phase = .test
  · -- a test brings `e` along, so that test depends on the constraint
    rcases List.mem_cons.mp hw with rfl | hlater
    · exact hacyclic w (TransGen.single hstep)
    obtain ⟨first, last, hentries⟩ := List.append_of_mem hwmem
    obtain ⟨front, rest, horder', hfront⟩ :=
      mem_before_test_iff hnodup hguards hsingle hacyclic hentries hphase
    obtain ⟨-, t, ht, hneeds⟩ :=
      (hfront e).mp (mem_front_of_later hdistinct horder hlater horder')
    have hreaches : ReflTransGen (DependsAmong entries) t e := by
      refine hneeds.lift id ?_
      rintro a b ⟨ha, hb, ⟨-, hab⟩ | ⟨htest, hfed⟩⟩
      · exact ⟨ha, hb, hab⟩
      · exact ⟨ha, hb, hfeeds a ha b hb htest hfed⟩
    have hcircle : TransGen (DependsAmong entries) t w := TransGen.tail' hreaches hstep
    rcases List.mem_append.mp ht with ht | ht
    · obtain ⟨htfirst, htest⟩ := List.mem_filter.mp ht
      have htmem : t ∈ entries := by
        rw [hentries]
        exact List.mem_append_left _ htfirst
      have hlt : t.index < w.index := by
        rw [hentries, List.map_append, List.pairwise_append] at hsorted
        exact hsorted.2.2 _ (List.mem_map_of_mem htfirst) _ (by simp)
      exact hlayered t htmem w hwmem (by simpa using htest) hphase hlt hcircle
    · rw [List.mem_singleton.mp ht] at hcircle
      exact hacyclic w hcircle
  · -- a provider has been placed in front
    obtain ⟨name, hread, hwrite⟩ := hdepends
    have hprovides : w.Provides := by
      unfold Entry.Provides
      cases hcase : w.phase <;> simp_all
    obtain ⟨u, hu, hwrites⟩ := provided_order hnodup hguards hacyclic before e after horder name
      hread ⟨w, hwmem, hprovides, hwrite⟩
    have humem : u ∈ entries := hperm.mem_iff.mp (by simp [horder, hu])
    obtain rfl := hsingle u humem w hwmem name hwrites hwrite
    rw [horder] at hdistinct
    exact (List.nodup_append.mp hdistinct).2.2 u hu u hw rfl

end Schedule

/-! ### The variables of a module -/

namespace Resolved

def envOf (m : Syntax.Module) (method : Syntax.Method) : Env :=
  ⟨fieldsOf m.groups, localsOf method.locals⟩

theorem flatten_tagged (groups : List (List Syntax.Var)) (tag : Nat → Bool)
    (htag : ∀ i, tag i = false) :
    (groups.mapIdx fun i members => members.map fun v => (v, tag i)).flatten =
      groups.flatten.map (·, false) := by
  induction groups generalizing tag with
  | nil => rfl
  | cons first rest ih =>
    rw [List.mapIdx_cons, List.flatten_cons, ih (fun i => tag (i + 1)) fun i => htag (i + 1),
      List.flatten_cons, List.map_append, htag 0]

theorem fieldsOf_groups (m : Syntax.Module) :
    fieldsOf m.groups = (m.inputs ++ m.outputs).mapIdx fun i v =>
      ⟨v.name, v.ty, .outer i, decide (i < m.inputs.length)⟩ := by
  unfold fieldsOf Syntax.Module.inputs Syntax.Module.outputs
  cases m.groups with
  | nil => rfl
  | cons first rest =>
    rw [List.mapIdx_cons, List.flatten_cons, flatten_tagged rest _ fun i => by simp]
    simp only [List.headD_cons, List.tail_cons]
    generalize rest.flatten = later
    refine List.ext_getElem (by simp) fun i hi hi' => ?_
    by_cases hlt : i < first.length
    · simp [hlt]
    · simp [List.getElem_append, hlt]

variable {m : Syntax.Module} {method : Syntax.Method} {k : Key} {w : Var}

theorem find?_envOf (h : (envOf m method).find? k = some w) :
    (k.1 = .parameter ∧ ∃ i v, (m.inputs ++ m.outputs)[i]? = some v ∧
        w = ⟨v.name, v.ty, .outer i, decide (i < m.inputs.length)⟩) ∨
      k.1 = .body ∧ ∃ i v, method.locals[i]? = some v ∧ w = ⟨v.name, v.ty, .inner i, false⟩ := by
  obtain ⟨scope, name⟩ := k
  have hmem := List.mem_of_find?_eq_some h
  cases scope with
  | parameter =>
    simp only [envOf, fieldsOf_groups, List.mem_reverse] at hmem
    obtain ⟨i, hi, rfl⟩ := List.mem_mapIdx.mp hmem
    exact Or.inl ⟨rfl, i, _, List.getElem?_eq_getElem hi, rfl⟩
  | body =>
    simp only [envOf, localsOf, List.mem_reverse] at hmem
    obtain ⟨i, hi, rfl⟩ := List.mem_mapIdx.mp hmem
    exact Or.inr ⟨rfl, i, _, List.getElem?_eq_getElem hi, rfl⟩

theorem input_of_find? (h : (envOf m method).find? k = some w)
    (hname : ∀ u ∈ m.inputs, u.name ≠ k.2) : w.input = false := by
  have hw := Env.name_of_find? h
  rcases find?_envOf h with ⟨-, i, v, hv, rfl⟩ | ⟨-, i, v, -, rfl⟩
  · by_contra hinput
    have hlt : i < m.inputs.length := by simpa using hinput
    rw [List.getElem?_append_left hlt] at hv
    exact hname v (List.mem_of_getElem? hv) hw
  · rfl

end Resolved

/-! ### Statements and entries -/

namespace Schedule

open Resolved (envOf StmtLowers)
open Syntax (IsPlain IsLayered keysOf Ordered)

/-- The statements of a method as scheduling sees them. -/
def entriesOf (m : Syntax.Module) (method : Syntax.Method) : List Entry :=
  classifyAll (Resolved.methodOf (Resolved.fieldsOf m.groups) 1 method).value.body

def positions (l : List Entry) : List Nat := (l.filter (·.phase = .assume)).map (·.index)

/-- The positions of the generators of a method, in the order of its schedule. -/
def generatorsOf (m : Syntax.Module) (method : Syntax.Method) : List Nat :=
  positions (order (entriesOf m method))

def stmtAt (body : List Syntax.Stmt) (e : Entry) : Syntax.Stmt :=
  body[e.index]?.getD ⟨.missing, {}⟩

/-- The statements of a method in the order of its schedule. -/
def inOrder (m : Syntax.Module) (method : Syntax.Method) : List Syntax.Stmt :=
  (order (entriesOf m method)).map (stmtAt method.body)

/-- An entry is about a statement of the source that has been resolved. -/
structure Stands (m : Syntax.Module) (method : Syntax.Method) (e : Entry) (a : Resolved.Action) :
    Prop where
  place : method.body[e.index]? = some (stmtAt method.body e)
  lowers : StmtLowers (envOf m method) (stmtAt method.body e).action a
  entry : e = classify e.index ⟨a, (stmtAt method.body e).span⟩

variable {m : Syntax.Module} {method : Syntax.Method} {e w : Entry}

theorem exists_stands (hplain : IsPlain m method)
    (hformed : ∀ r ∈ (Resolved.methodOf (Resolved.fieldsOf m.groups) 1 method).value.body,
      r.isMalformed = false) (he : e ∈ entriesOf m method) : ∃ a, Stands m method e a := by
  obtain ⟨i, r, hr, rfl⟩ := mem_classifyAll.mp he
  have hnot := hformed r (List.mem_of_getElem? hr)
  have hbody : (Resolved.methodOf (Resolved.fieldsOf m.groups) 1 method).value.body =
      method.body.map fun s => ((envOf m method).stmt s).value := by
    simp [Resolved.methodOf, envOf]
  rw [hbody, List.getElem?_map, Option.map_eq_some_iff] at hr
  obtain ⟨s, hs, rfl⟩ := hr
  have hmem : s ∈ method.body := List.mem_of_getElem? hs
  have hstmt : stmtAt method.body (classify i ((envOf m method).stmt s).value) = s := by
    simp [stmtAt, classify, hs]
  cases haction : (envOf m method).action s.action with
  | error complaint => simp [Resolved.Env.stmt, haction, Resolved.Stmt.isMalformed] at hnot
  | ok a =>
    refine ⟨a, ?_, ?_, ?_⟩
    · rw [hstmt]
      exact hs
    · rw [hstmt]
      refine Resolved.stmtLowers_of_action haction ?_ ?_
      · intro condition hcondition
        simpa [Syntax.Stmt.guard?, hcondition] using hplain.guards s hmem
      · intro callee inputs outputs hcall
        simpa [Syntax.Stmt.isCall, hcall] using hplain.calls s hmem
    · rw [hstmt]
      simp [Resolved.Env.stmt, haction, classify]

theorem Stands.mem {a : Resolved.Action} (h : Stands m method e a) :
    stmtAt method.body e ∈ method.body := List.mem_of_getElem? h.place

theorem Stands.phase {a : Resolved.Action} (h : Stands m method e a) :
    e.phase = if (stmtAt method.body e).isGenerator then .assume
      else if (stmtAt method.body e).isTest then .test else .compute := by
  rw [h.entry]
  exact h.lowers.phaseOf

theorem Stands.isTest {a : Resolved.Action} (h : Stands m method e a) (htest : e.phase = .test) :
    (stmtAt method.body e).isTest = true := by
  have hphase := h.phase
  rw [htest] at hphase
  by_cases hgenerator : (stmtAt method.body e).isGenerator = true
  · simp [hgenerator] at hphase
  · by_contra hnot
    simp [hgenerator, hnot] at hphase

theorem Stands.isGenerator_iff {a : Resolved.Action} (h : Stands m method e a) :
    e.phase = .assume ↔ (stmtAt method.body e).isGenerator = true := by
  rw [h.phase]
  by_cases hgenerator : (stmtAt method.body e).isGenerator = true
  · simp [hgenerator]
  · by_cases htest : (stmtAt method.body e).isTest = true
    · simp [hgenerator, htest]
    · simp [hgenerator, htest]

theorem Stands.mem_writes {a : Resolved.Action} (h : Stands m method e a) {name : String} :
    name ∈ e.writes ↔ ∃ v ∈ (stmtAt method.body e).targets, v.name = name := by
  have hfound : Resolved.Found (envOf m method) (stmtAt method.body e).targets
      (Resolved.Stmt.mk a (stmtAt method.body e).span).writes := h.lowers.found_writes
  have hwrites : name ∈ e.writes ↔
      (Resolved.Stmt.mk a (stmtAt method.body e).span).Binds name := by
    conv_lhs => rw [h.entry]
    exact mem_writeNames
  rw [hwrites]
  constructor
  · rintro ⟨w, hw, rfl⟩
    obtain ⟨v, hv, hkey⟩ := hfound.exists_left hw
    exact ⟨v, hv, (Resolved.Env.name_of_find? hkey).symm⟩
  · rintro ⟨v, hv, rfl⟩
    obtain ⟨w, hw, hkey⟩ := hfound.exists_right hv
    exact ⟨w, hw, Resolved.Env.name_of_find? hkey⟩

theorem Stands.exists_read {a : Resolved.Action} (h : Stands m method e a) {name : String}
    (hread : name ∈ e.reads) : ∃ v ∈ (stmtAt method.body e).reads, v.name = name := by
  have hfound : Resolved.Found (envOf m method) (stmtAt method.body e).reads
      (Resolved.Stmt.mk a (stmtAt method.body e).span).reads := h.lowers.found_reads
  rw [h.entry] at hread
  obtain ⟨w, hw, -, rfl⟩ := mem_readNames.mp hread
  obtain ⟨v, hv, hkey⟩ := hfound.exists_left hw
  exact ⟨v, hv, (Resolved.Env.name_of_find? hkey).symm⟩

theorem Stands.mem_reads {a : Resolved.Action} (h : Stands m method e a) {v : Syntax.Var}
    (hv : v ∈ (stmtAt method.body e).reads) (hname : ∀ u ∈ m.inputs, u.name ≠ v.name) :
    v.name ∈ e.reads := by
  have hfound : Resolved.Found (envOf m method) (stmtAt method.body e).reads
      (Resolved.Stmt.mk a (stmtAt method.body e).span).reads := h.lowers.found_reads
  obtain ⟨w, hw, hkey⟩ := hfound.exists_right hv
  rw [h.entry]
  exact mem_readNames.mpr
    ⟨w, hw, Resolved.input_of_find? hkey hname, Resolved.Env.name_of_find? hkey⟩

/-! ### Dependence -/

/-- A plain method of which every statement has been resolved. -/
structure Prepared (m : Syntax.Module) (method : Syntax.Method) : Prop where
  plain : IsPlain m method
  stands : ∀ e ∈ entriesOf m method, ∃ a, Stands m method e a

namespace Prepared

theorem name_ne_of_mem_writes (h : Prepared m method) (hw : w ∈ entriesOf m method) {name : String}
    (hname : name ∈ w.writes) : ∀ u ∈ m.inputs, u.name ≠ name := by
  obtain ⟨a, hstand⟩ := h.stands w hw
  obtain ⟨v, hv, rfl⟩ := hstand.mem_writes.mp hname
  exact h.plain.inputs _ hstand.mem v hv

theorem dependsIn_stmtAt (h : Prepared m method)
    (hdepends : DependsAmong (entriesOf m method) e w) :
    Syntax.DependsIn m.inputs method.body (stmtAt method.body e) (stmtAt method.body w) := by
  obtain ⟨he, hw, name, hread, hwrite⟩ := hdepends
  obtain ⟨a, hstand⟩ := h.stands e he
  obtain ⟨a', hstand'⟩ := h.stands w hw
  obtain ⟨v, hv, rfl⟩ := hstand.exists_read hread
  exact ⟨hstand.mem, hstand'.mem, v, hv, h.name_ne_of_mem_writes hw hwrite,
    hstand'.mem_writes.mp hwrite⟩

theorem single (h : Prepared m method) : Single (entriesOf m method) := by
  intro a ha b hb name hna hnb
  obtain ⟨_, hstand⟩ := h.stands a ha
  obtain ⟨_, hstand'⟩ := h.stands b hb
  obtain ⟨v, hv, hvname⟩ := hstand.mem_writes.mp hna
  obtain ⟨u, hu, huname⟩ := hstand'.mem_writes.mp hnb
  have hnodup := h.plain.targets
  rw [List.map_flatMap, List.nodup_flatMap] at hnodup
  obtain ⟨hi, hvat⟩ := List.getElem?_eq_some_iff.mp hstand.place
  obtain ⟨hj, huat⟩ := List.getElem?_eq_some_iff.mp hstand'.place
  have hmemv : name ∈ (method.body[a.index].targets).map (·.name) := by
    rw [hvat, ← hvname]
    exact List.mem_map_of_mem hv
  have hmemu : name ∈ (method.body[b.index].targets).map (·.name) := by
    rw [huat, ← huname]
    exact List.mem_map_of_mem hu
  have hindex : a.index = b.index := by
    rcases Nat.lt_trichotomy a.index b.index with hlt | heq | hlt
    · exact absurd hmemu (List.pairwise_iff_getElem.mp hnodup.2 _ _ hi hj hlt hmemv)
    · exact heq
    · exact absurd hmemv (List.pairwise_iff_getElem.mp hnodup.2 _ _ hj hi hlt hmemu)
  exact indexed_of_nodup (nodup_index_classifyAll _) a ha b hb hindex

theorem guard_eq_false (h : Prepared m method) (he : e ∈ entriesOf m method) : e.guard = false := by
  obtain ⟨a, hstand⟩ := h.stands e he
  rw [hstand.entry]
  exact hstand.lowers.isGuard

/-- What feeds a test writes something that the test reads. -/
theorem dependsOn_of_feeds (h : Prepared m method) (he : e ∈ entriesOf m method)
    (hw : w ∈ entriesOf m method) (htest : e.phase = .test) (hfeeds : w.Feeds e) :
    e.DependsOn w := by
  obtain ⟨hphase, name, htarget, hwrite⟩ := hfeeds
  obtain ⟨a, hstand⟩ := h.stands e he
  have hfound : Resolved.Found (envOf m method) (stmtAt method.body e).reads
      (Resolved.Stmt.mk a (stmtAt method.body e).span).reads := hstand.lowers.found_reads
  rw [hstand.entry] at htarget
  rcases reads_or_binds_of_targetOf htarget with ⟨u, hu, rfl⟩ | hbinds
  · obtain ⟨v, hv, hkey⟩ := hfound.exists_left hu
    rw [Resolved.Env.name_of_find? hkey] at hwrite
    exact ⟨v.name, hstand.mem_reads hv (h.name_ne_of_mem_writes hw hwrite), hwrite⟩
  · have hown : name ∈ e.writes := by
      rw [hstand.entry]
      exact mem_writeNames.mpr hbinds
    obtain rfl := h.single e he w hw name hown hwrite
    rw [htest] at hphase
    cases hphase

theorem acyclic (h : Prepared m method) (hlayered : IsLayered m.inputs method.body) (e : Entry) :
    ¬ TransGen (DependsAmong (entriesOf m method)) e e := fun hcircle =>
  hlayered.acyclic (stmtAt method.body e)
    (hcircle.lift (stmtAt method.body) fun _ _ => h.dependsIn_stmtAt)

theorem layered (h : Prepared m method) (hlayered : IsLayered m.inputs method.body) {t c : Entry}
    (ht : t ∈ entriesOf m method) (hc : c ∈ entriesOf m method) (htest : t.phase = .test)
    (hctest : c.phase = .test) (hlt : t.index < c.index) :
    ¬ TransGen (DependsAmong (entriesOf m method)) t c := by
  intro hreaches
  obtain ⟨a, hstand⟩ := h.stands t ht
  obtain ⟨a', hstand'⟩ := h.stands c hc
  -- something reads what `c` writes, so it is not just a test
  have hconstraint : (stmtAt method.body c).isConstraint = true := by
    obtain ⟨x, -, -, -, name, -, hwrite⟩ := Relation.TransGen.tail'_iff.mp hreaches
    obtain ⟨v, hv, -⟩ := hstand'.mem_writes.mp hwrite
    have htest' := hstand'.isTest hctest
    unfold Syntax.Stmt.isTest at htest'
    split at htest'
    · rename_i condition haction
      simp [Syntax.Stmt.targets, haction] at hv
    · exact htest'
  obtain ⟨hi, hat⟩ := List.getElem?_eq_some_iff.mp hstand.place
  obtain ⟨hj, hat'⟩ := List.getElem?_eq_some_iff.mp hstand'.place
  have hnot := List.pairwise_iff_getElem.mp hlayered.constraints _ _ hi hj hlt
  rw [hat, hat'] at hnot
  exact hnot (hstand.isTest htest) hconstraint
    (hreaches.lift (stmtAt method.body) fun _ _ => h.dependsIn_stmtAt)

end Prepared

/-! ### The statements in order -/

theorem ordered_map {l : List Entry} {f : Entry → Syntax.Stmt}
    (h : ∀ before e after, l = before ++ e :: after →
      ∀ v ∈ (f e).reads, v.key ∉ keysOf ((e :: after).map f)) : Ordered (l.map f) := by
  induction l with
  | nil => trivial
  | cons e rest ih =>
    refine ⟨h [] e rest rfl, ih ?_⟩
    intro before x after hrest
    exact h (e :: before) x after (by rw [hrest]; rfl)

namespace Prepared

theorem ordered (h : Prepared m method) (hlayered : IsLayered m.inputs method.body) :
    Ordered (inOrder m method) := by
  refine ordered_map fun before e after horder v hv hlater => ?_
  have hperm := order_perm (nodup_index_classifyAll
    (Resolved.methodOf (Resolved.fieldsOf m.groups) 1 method).value.body)
  have hmem : ∀ x ∈ e :: after, x ∈ entriesOf m method := by
    intro x hx
    refine hperm.mem_iff.mp ?_
    show x ∈ order (entriesOf m method)
    rw [horder]
    exact List.mem_append_right _ hx
  obtain ⟨s, hs, hkey⟩ := List.mem_flatMap.mp hlater
  obtain ⟨w, hw, rfl⟩ := List.mem_map.mp hs
  obtain ⟨u, hu, hukey⟩ := List.mem_map.mp hkey
  obtain ⟨a, hstand⟩ := h.stands e (hmem e (by simp))
  obtain ⟨a', hstand'⟩ := h.stands w (hmem w hw)
  have hname : u.name = v.name := congrArg Prod.snd hukey
  have hwrite : v.name ∈ w.writes := hstand'.mem_writes.mpr ⟨u, hu, hname⟩
  have hread := hstand.mem_reads hv (h.name_ne_of_mem_writes (hmem w hw) hwrite)
  refine not_dependsOn_later ?_ (fun e he => h.guard_eq_false he) h.single (h.acyclic hlayered)
    (fun t ht w hw => h.dependsOn_of_feeds ht hw)
    (fun t ht c hc => h.layered hlayered ht hc) horder w hw ⟨v.name, hread, hwrite⟩
  rw [entriesOf, map_index_classifyAll]
  exact List.pairwise_lt_range

end Prepared

theorem map_stmtAt_entriesOf (m : Syntax.Module) (method : Syntax.Method) :
    (entriesOf m method).map (stmtAt method.body) = method.body := by
  refine List.ext_getElem (by simp [entriesOf, classifyAll, Resolved.methodOf]) fun i hi hi' => ?_
  simp [entriesOf, classifyAll, stmtAt, classify, hi']

theorem inOrder_perm (m : Syntax.Module) (method : Syntax.Method) :
    (inOrder m method).Perm method.body := by
  have hperm := (order_perm (nodup_index_classifyAll
    (Resolved.methodOf (Resolved.fieldsOf m.groups) 1 method).value.body)).map
      (stmtAt method.body)
  exact hperm.trans (List.Perm.of_eq (map_stmtAt_entriesOf m method))

theorem nodup_keysOf_inOrder (hplain : IsPlain m method) : (keysOf (inOrder m method)).Nodup := by
  have hperm : (keysOf (inOrder m method)).Perm (keysOf method.body) :=
    (inOrder_perm m method).flatMap_right _
  refine hperm.nodup_iff.mpr (List.Nodup.of_map (·.2) ?_)
  have hnames : (keysOf method.body).map (·.2) =
      (method.body.flatMap (·.targets)).map (·.name) := by
    simp [keysOf, List.map_flatMap, Syntax.Var.key, Function.comp_def]
  rw [hnames]
  exact hplain.targets

/-! ### Models -/

theorem placeOf_of_not_mem {generators choices : List Nat} {i : Nat} (h : i ∉ generators) :
    Syntax.placeOf generators choices i = 0 := by
  have hnone : (generators.zip choices).lookup i = none := by
    rw [List.lookup_eq_none_iff]
    intro p hp
    have hmem := (List.of_mem_zip (show (p.1, p.2) ∈ generators.zip choices from hp)).1
    simp only [bne_iff_ne, ne_eq]
    rintro rfl
    exact h hmem
  rw [Syntax.placeOf, hnone]
  rfl

theorem placeOf_cons_self (i place : Nat) (generators choices : List Nat) :
    Syntax.placeOf (i :: generators) (place :: choices) i = place := by
  simp [Syntax.placeOf]

theorem placeOf_cons_of_ne {i j : Nat} (h : j ≠ i) (place : Nat) (generators choices : List Nat) :
    Syntax.placeOf (i :: generators) (place :: choices) j =
      Syntax.placeOf generators choices j := by
  have hbeq : (j == i) = false := by simp [h]
  simp [Syntax.placeOf, List.lookup_cons, hbeq]

/-- All statements hold in a row iff each of them holds at the place chosen for it. -/
theorem holdsAll_map_iff {body : List Syntax.Stmt} {W : Valuation} {l : List Entry}
    (hgenerators : ∀ e ∈ l, e.phase = .assume ↔ (stmtAt body e).isGenerator = true)
    (hnodup : (l.map (·.index)).Nodup) {choices : List Nat} :
    Syntax.HoldsAll W (l.map (stmtAt body)) choices ↔
      choices.length = (positions l).length ∧
        ∀ e ∈ l, (stmtAt body e).Holds W (Syntax.placeOf (positions l) choices e.index) := by
  induction l generalizing choices with
  | nil =>
    constructor
    · intro hall
      cases hall
      exact ⟨rfl, by simp⟩
    · rintro ⟨hlength, -⟩
      rw [List.length_eq_zero_iff.mp hlength]
      exact .nil
  | cons e rest ih =>
    rw [List.map_cons, List.nodup_cons] at hnodup
    obtain ⟨hnew, hnodup⟩ := hnodup
    have hrest := fun {choices} => @ih (fun x hx => hgenerators x (by simp [hx])) hnodup choices
    have hne : ∀ x ∈ rest, x.index ≠ e.index := fun x hx heq =>
      hnew (heq ▸ List.mem_map_of_mem hx)
    by_cases hphase : e.phase = .assume
    · have hpositions : positions (e :: rest) = e.index :: positions rest := by
        simp [positions, hphase]
      have hgenerator := (hgenerators e (by simp)).mp hphase
      rw [hpositions, List.map_cons, Syntax.holdsAll_cons_chosen hgenerator]
      constructor
      · rintro ⟨place, later, rfl, hholds, hall⟩
        obtain ⟨hlength, hall⟩ := hrest.mp hall
        refine ⟨by simp [hlength], fun x hx => ?_⟩
        rcases List.mem_cons.mp hx with rfl | hx
        · rwa [placeOf_cons_self]
        · rw [placeOf_cons_of_ne (hne x hx)]
          exact hall x hx
      · rintro ⟨hlength, hall⟩
        obtain ⟨place, later, rfl⟩ := List.exists_cons_of_length_eq_add_one hlength
        have hholds := hall e (by simp)
        rw [placeOf_cons_self] at hholds
        refine ⟨place, later, rfl, hholds, hrest.mpr ⟨by simpa using hlength, fun x hx => ?_⟩⟩
        have hlater := hall x (by simp [hx])
        rwa [placeOf_cons_of_ne (hne x hx)] at hlater
    · have hpositions : positions (e :: rest) = positions rest := by
        simp [positions, hphase]
      have hplain : (stmtAt body e).isGenerator = false := by
        have hnot := mt (hgenerators e (by simp)).mpr hphase
        simpa using hnot
      have hzero : Syntax.placeOf (positions rest) choices e.index = 0 := by
        refine placeOf_of_not_mem fun hmem => hnew ?_
        obtain ⟨x, hx, hindex⟩ := List.mem_map.mp hmem
        exact hindex ▸ List.mem_map_of_mem (List.mem_of_mem_filter hx)
      rw [hpositions, List.map_cons, Syntax.holdsAll_cons_plain hplain, hrest, List.forall_mem_cons,
        hzero]
      exact and_left_comm

/-- The values that the inputs are given; no other variable has one. -/
def inputsOf (m : Syntax.Module) (b : Search.Bindings) : Valuation := fun k =>
  if k.1 = .parameter ∧ k.2 ∈ m.inputs.map (·.name) then b.get? k.2 else none

theorem mem_keysOf {body : List Syntax.Stmt} {k : Key} :
    k ∈ keysOf body ↔ ∃ s ∈ body, ∃ v ∈ s.targets, v.key = k := by
  simp [keysOf]

/-- Outside the targets, a model has the values of the inputs. -/
theorem agrees_inputsOf_iff (hplain : IsPlain m method) {b : Search.Bindings} {W : Valuation} :
    (∀ k, k ∉ keysOf method.body → W k = inputsOf m b k) ↔
      (∀ v ∈ m.inputs, W (.parameter, v.name) = b.get? v.name) ∧
        ∀ k : Key, (∀ v ∈ m.inputs, k ≠ (.parameter, v.name)) →
          (∀ s ∈ method.body, ∀ v ∈ s.targets, k ≠ v.key) → W k = none := by
  constructor
  · intro houtside
    constructor
    · intro v hv
      rw [houtside, inputsOf, if_pos ⟨rfl, List.mem_map_of_mem hv⟩]
      intro hmem
      obtain ⟨s, hs, u, hu, hkey⟩ := mem_keysOf.mp hmem
      exact hplain.inputs s hs u hu v hv (congrArg Prod.snd hkey).symm
    · intro k hinput htarget
      rw [houtside, inputsOf, if_neg]
      · rintro ⟨hscope, hname⟩
        obtain ⟨v, hv, hvname⟩ := List.mem_map.mp hname
        exact hinput v hv (Prod.ext hscope hvname.symm)
      · intro hmem
        obtain ⟨s, hs, v, hv, hkey⟩ := mem_keysOf.mp hmem
        exact htarget s hs v hv hkey.symm
  · rintro ⟨hinputs, hothers⟩ k hk
    unfold inputsOf
    split
    · rename_i hinput
      obtain ⟨v, hv, hvname⟩ := List.mem_map.mp hinput.2
      obtain rfl : k = (.parameter, v.name) := Prod.ext hinput.1 hvname.symm
      exact hinputs v hv
    · rename_i hinput
      refine hothers k ?_ ?_
      · rintro v hv rfl
        exact hinput ⟨rfl, List.mem_map_of_mem hv⟩
      · rintro s hs v hv rfl
        exact hk (mem_keysOf.mpr ⟨s, hs, v, hv, rfl⟩)

/-- **A model of a method** gives values to the variables of the statements in the order
    of the schedule. -/
theorem Prepared.isModel_iff (h : Prepared m method) {b : Search.Bindings} {choices : List Nat}
    {W : Valuation} :
    Syntax.IsModel m method.body b (generatorsOf m method) choices W ↔
      Syntax.Extends (inputsOf m b) (inOrder m method) choices W := by
  have hperm : (order (entriesOf m method)).Perm (entriesOf m method) :=
    order_perm (nodup_index_classifyAll _)
  have hmem : ∀ k, k ∈ keysOf (inOrder m method) ↔ k ∈ keysOf method.body := fun k =>
    ((inOrder_perm m method).flatMap_right _).mem_iff
  have hall : Syntax.HoldsAll W (inOrder m method) choices ↔ _ := holdsAll_map_iff
    (fun e he => by
      obtain ⟨a, hstand⟩ := h.stands e (hperm.mem_iff.mp he)
      exact hstand.isGenerator_iff)
    ((hperm.map _).nodup_iff.mpr (nodup_index_classifyAll _))
  have hplaces : (∀ e ∈ order (entriesOf m method), (stmtAt method.body e).Holds W
      (Syntax.placeOf (generatorsOf m method) choices e.index)) ↔
      ∀ i (s : Syntax.Stmt), method.body[i]? = some s →
        s.Holds W (Syntax.placeOf (generatorsOf m method) choices i) := by
    constructor
    · intro hholds i s hs
      have hindex : i ∈ (entriesOf m method).map (·.index) := by
        rw [entriesOf, map_index_classifyAll, List.mem_range]
        simpa [Resolved.methodOf] using (List.getElem?_eq_some_iff.mp hs).1
      obtain ⟨e, he, rfl⟩ := List.mem_map.mp hindex
      have hstmt : stmtAt method.body e = s := by simp [stmtAt, hs]
      rw [← hstmt]
      exact hholds e (hperm.mem_iff.mpr he)
    · intro hholds e he
      obtain ⟨a, hstand⟩ := h.stands e (hperm.mem_iff.mp he)
      exact hholds _ _ hstand.place
  have houtside := agrees_inputsOf_iff (b := b) (W := W) h.plain
  simp only [Syntax.Extends, hmem, houtside, hall]
  constructor
  · rintro ⟨hchosen, hinputs, hothers, hholds⟩
    exact ⟨⟨hinputs, hothers⟩, hchosen, hplaces.mpr hholds⟩
  · rintro ⟨⟨hinputs, hothers⟩, hchosen, hholds⟩
    exact ⟨hchosen, hinputs, hothers, hplaces.mp hholds⟩

end Schedule

end CandidateSearch
