/-
  CandidateSearch/Proofs/Declarative/Enumeration.lean
  ===================================================
  **All models in order, each of them once.**

  Statements in an order in which everything is bound before it is read are explored one
  inside the other.  What comes out is one solution for every way in which all of them
  hold, sorted by the places that have been chosen for the generators:

      X = select([4, 5]);  Y = select([1, 2]);  test(X - Y > 2);

      places  0 0   X = 4, Y = 1
              1 0   X = 5, Y = 1
              1 1   X = 5, Y = 2

  The induction is on the statements.  The values of the variables that are still to be
  bound are left open in it, and the store can hold anything in their cells.
-/
import CandidateSearch.Proofs.Declarative.Branches

namespace CandidateSearch

open Syntax

namespace Syntax

/-- The variables that statements bind. -/
def keysOf (stmts : List Stmt) : List Key := stmts.flatMap fun s => s.targets.map (·.key)

/-- No statement reads what it binds itself, or what is bound after it. -/
def Ordered : List Stmt → Prop
  | [] => True
  | s :: rest => (∀ v ∈ s.reads, v.key ∉ keysOf (s :: rest)) ∧ Ordered rest

/-- All statements hold, the generators at the places given for them in order. -/
inductive HoldsAll (W : Valuation) : List Stmt → List Nat → Prop where
  | nil : HoldsAll W [] []
  | plain {s : Stmt} {rest : List Stmt} {choices : List Nat} : s.isGenerator = false →
      s.Holds W 0 → HoldsAll W rest choices → HoldsAll W (s :: rest) choices
  | chosen {s : Stmt} {rest : List Stmt} {place : Nat} {choices : List Nat} :
      s.isGenerator = true → s.Holds W place → HoldsAll W rest choices →
      HoldsAll W (s :: rest) (place :: choices)

theorem holdsAll_cons_plain {W : Valuation} {s : Stmt} {rest : List Stmt} {choices : List Nat}
    (hs : s.isGenerator = false) :
    HoldsAll W (s :: rest) choices ↔ s.Holds W 0 ∧ HoldsAll W rest choices := by
  constructor
  · intro hall
    cases hall with
    | plain _ hholds hrest => exact ⟨hholds, hrest⟩
    | chosen hgenerator _ _ => simp [hs] at hgenerator
  · rintro ⟨hholds, hrest⟩
    exact .plain hs hholds hrest

theorem holdsAll_cons_chosen {W : Valuation} {s : Stmt} {rest : List Stmt} {choices : List Nat}
    (hs : s.isGenerator = true) :
    HoldsAll W (s :: rest) choices ↔
      ∃ place later, choices = place :: later ∧ s.Holds W place ∧ HoldsAll W rest later := by
  constructor
  · intro hall
    cases hall with
    | plain hplain _ _ => simp [hs] at hplain
    | chosen _ hholds hrest => exact ⟨_, _, rfl, hholds, hrest⟩
  · rintro ⟨place, later, rfl, hholds, hrest⟩
    exact .chosen hs hholds hrest

/-- Values for the variables of the statements under which all of these hold. -/
def Extends (V : Valuation) (stmts : List Stmt) (choices : List Nat) (W : Valuation) : Prop :=
  (∀ k, k ∉ keysOf stmts → W k = V k) ∧ HoldsAll W stmts choices

end Syntax

namespace Search

variable {env : Resolved.Env} {refs : Env} {V : Valuation} {s s' : Store}

theorem keysOf_cons (stmt : Stmt) (rest : List Stmt) :
    keysOf (stmt :: rest) = stmt.targets.map (·.key) ++ keysOf rest := rfl

/-! ### One statement and the rest -/

theorem Swept.keys {keys : List Key} {body : Explore} {branches : List (List (Key × Value))}
    {found : List Solution} (h : Swept env refs keys body branches s found s') :
    ∀ bound ∈ branches, bound.map (·.1) = keys := by
  induction h with
  | nil => simp
  | dropped _ => simp
  | cons hkeys _ _ ih => simpa [hkeys] using ih

/-- To hold together with the rest is to go on with the rest from one of the branches. -/
theorem holds_and_rest_iff {stmt : Stmt} {rest : List Stmt}
    {branches : List (List (Key × Value))} (hcovers : Covers stmt V branches)
    (hkeys : ∀ bound ∈ branches, bound.map (·.1) = stmt.targets.map (·.key))
    (hreads : ∀ v ∈ stmt.reads, v.key ∉ keysOf (stmt :: rest))
    (hnodup : (keysOf (stmt :: rest)).Nodup) {place : Nat}
    (hplace : stmt.isGenerator = false → place = 0) {choices : List Nat} {W : Valuation} :
    ((∀ k, k ∉ keysOf (stmt :: rest) → W k = V k) ∧ stmt.Holds W place ∧
        HoldsAll W rest choices) ↔
      ∃ bound, branches[place]? = some bound ∧ Extends (V.setAll bound) rest choices W := by
  rw [keysOf_cons] at hreads hnodup ⊢
  obtain ⟨hfirst, -, hdisjoint⟩ := List.nodup_append.mp hnodup
  constructor
  · rintro ⟨houtside, hholds, hrest⟩
    obtain ⟨bound, hbound, hall⟩ :=
      (hcovers.holds_iff W (fun v hv => houtside _ (hreads v hv)) place hplace).mp hholds
    have hmap := hkeys bound (List.mem_of_getElem? hbound)
    refine ⟨bound, hbound, fun k hk => ?_, hrest⟩
    by_cases hmem : k ∈ bound.map (·.1)
    · obtain ⟨p, hp, rfl⟩ := List.mem_map.mp hmem
      rw [Valuation.setAll_of_mem (hmap ▸ hfirst) hp, hall p hp]
    · rw [Valuation.setAll_of_not_mem hmem]
      apply houtside
      rw [List.mem_append, ← hmap]
      exact not_or.mpr ⟨hmem, hk⟩
  · rintro ⟨bound, hbound, houtside, hrest⟩
    have hmap := hkeys bound (List.mem_of_getElem? hbound)
    have hagree : ∀ k, k ∉ stmt.targets.map (·.key) ++ keysOf rest → W k = V k := by
      intro k hk
      rw [List.mem_append, not_or, ← hmap] at hk
      rw [houtside k hk.2, Valuation.setAll_of_not_mem hk.1]
    refine ⟨hagree, ?_, hrest⟩
    refine (hcovers.holds_iff W (fun v hv => hagree _ (hreads v hv)) place hplace).mpr
      ⟨bound, hbound, fun p hp => ?_⟩
    have hp' : p.1 ∈ stmt.targets.map (·.key) := hmap ▸ List.mem_map_of_mem hp
    rw [houtside p.1 fun hlater => hdisjoint _ hp' _ hlater rfl,
      Valuation.setAll_of_mem (hmap ▸ hfirst) hp]

/-! ### Lists of models -/

/-- A list of models, in order and without repetition, and what is seen of each of them. -/
structure Lists (view : Valuation → Solution) (found : List Solution)
    (models : List (List Nat × Valuation)) (Model : List Nat → Valuation → Prop) : Prop where
  found : found = models.map fun m => view m.2
  sorted : (models.map (·.1)).Pairwise (· < ·)
  mem_iff : ∀ choices W, (choices, W) ∈ models ↔ Model choices W

variable {view : Valuation → Solution}

theorem Lists.append {found later : List Solution} {models models' : List (List Nat × Valuation)}
    {Model : List Nat → Valuation → Prop} {Later : List Nat → Valuation → Prop} (start : Nat)
    (h : Lists view found models Model) (h' : Lists view later models' Later)
    (hlater : ∀ choices W, Later choices W →
      ∃ place rest, choices = place :: rest ∧ start < place) :
    Lists view (found ++ later) ((models.map fun m => (start :: m.1, m.2)) ++ models')
      fun choices W => (∃ rest, choices = start :: rest ∧ Model rest W) ∨ Later choices W := by
  refine ⟨?_, ?_, fun choices W => ?_⟩
  · simp [h.found, h'.found]
  · rw [List.map_append, List.pairwise_append]
    refine ⟨?_, h'.sorted, ?_⟩
    · have hsorted := h.sorted
      rw [List.pairwise_map] at hsorted ⊢
      simpa [List.pairwise_map] using hsorted
    · intro first hfirst second hsecond
      obtain ⟨⟨choices, W⟩, hmem, rfl⟩ := List.mem_map.mp hsecond
      obtain ⟨place, rest, rfl, hlt⟩ := hlater _ _ ((h'.mem_iff _ _).mp hmem)
      simp only [List.map_map, List.mem_map, Function.comp] at hfirst
      obtain ⟨m, -, rfl⟩ := hfirst
      exact List.cons_lt_cons_iff.mpr (Or.inl hlt)
  · rw [List.mem_append, h'.mem_iff]
    refine or_congr_left ?_
    constructor
    · intro hmem
      obtain ⟨m, hm, heq⟩ := List.mem_map.mp hmem
      cases heq
      exact ⟨m.1, rfl, (h.mem_iff _ _).mp hm⟩
    · rintro ⟨rest, rfl, hrest⟩
      exact List.mem_map.mpr ⟨(rest, W), (h.mem_iff _ _).mpr hrest, rfl⟩

theorem Lists.congr {found : List Solution} {models : List (List Nat × Valuation)}
    {P Q : List Nat → Valuation → Prop} (h : Lists view found models P)
    (hiff : ∀ choices W, P choices W ↔ Q choices W) : Lists view found models Q :=
  ⟨h.found, h.sorted, fun choices W => (h.mem_iff choices W).trans (hiff choices W)⟩

/-- Where there is only one place to choose, nothing is chosen. -/
theorem Lists.tail {found : List Solution} {models : List (List Nat × Valuation)}
    {P : List Nat → Valuation → Prop} (h : Lists view found models P)
    (hzero : ∀ choices W, P choices W → ∃ rest, choices = 0 :: rest) :
    Lists view found (models.map fun m => (m.1.tail, m.2)) fun choices W => P (0 :: choices) W := by
  have hhead : ∀ m ∈ models, m.1 = 0 :: m.1.tail := by
    intro m hm
    obtain ⟨rest, hrest⟩ := hzero m.1 m.2 ((h.mem_iff _ _).mp hm)
    simp [hrest]
  refine ⟨by simp [h.found], ?_, fun choices W => ?_⟩
  · have hsorted := h.sorted
    rw [List.pairwise_map] at hsorted
    rw [List.map_map, List.pairwise_map]
    refine hsorted.imp_of_mem fun {m m'} hm hm' hlt => ?_
    rw [hhead m hm, hhead m' hm', List.cons_lt_cons_iff] at hlt
    simpa using hlt
  · rw [← h.mem_iff, List.mem_map]
    constructor
    · rintro ⟨m, hm, heq⟩
      cases heq
      rwa [← hhead m hm]
    · intro hm
      exact ⟨_, hm, rfl⟩

/-! ### The whole list of statements -/

/-- Whatever the earlier variables are, exploring the statements lists their models. -/
def Enumerates (env : Resolved.Env) (refs : Env) (size : Nat) (view : Valuation → Solution)
    (stmts : List Stmt) (body : Explore) : Prop :=
  ∀ V s found s', s.size = size → Agrees env refs s V (keysOf stmts) →
    body s = ⟨found, .done s'⟩ →
      s'.size = size ∧ Agrees env refs s' V (keysOf stmts) ∧
        ∃ models, Lists view found models (Extends V stmts)

variable {size : Nat} {rest : List Stmt} {body : Explore}

theorem lists_of_swept (hlayout : Layout env refs size)
    (hbody : Enumerates env refs size view rest body) {keys : List Key}
    (hkeys : ∀ k ∈ keys, ∃ w, env.find? k = some w) {branches : List (List (Key × Value))}
    {found : List Solution} (hswept : Swept env refs keys body branches s found s')
    (hsize : s.size = size) (hagrees : Agrees env refs s V (keys ++ keysOf rest)) (start : Nat) :
    s'.size = size ∧ Agrees env refs s' V (keys ++ keysOf rest) ∧
      ∃ models, Lists view found models fun choices W => ∃ i later bound,
        choices = (start + i) :: later ∧ branches[i]? = some bound ∧
          Extends (V.setAll bound) rest later W := by
  -- binding the variables makes the store agree with the values that they get
  have hwritten : ∀ (s : Store) (bound : List (Key × Value)), s.size = size →
      Agrees env refs s V (keys ++ keysOf rest) → bound.map (·.1) = keys →
      Agrees env refs (s.writeAll (writesOf env refs bound)) (V.setAll bound) (keysOf rest) := by
    intro s bound hsize hagrees hmap
    refine Agrees.writeAll (hsize ▸ hlayout) ?_ (hmap ▸ hagrees)
    exact fun p hp => hkeys p.1 (hmap ▸ List.mem_map_of_mem hp)
  induction hswept generalizing start with
  | nil => exact ⟨hsize, hagrees, [], rfl, .nil, by simp⟩
  | @dropped bound s hmap =>
    refine ⟨by rw [Store.size_writeAll, hsize], ?_, [], rfl, .nil, by simp⟩
    rw [← hmap]
    exact (hwritten s bound hsize hagrees hmap).of_setAll
  | @cons bound branches s s₁ s₂ found later hmap hdone _ ih =>
    obtain ⟨hsize₁, hagrees₁, models, hmodels⟩ := hbody _ _ _ _
      (by rw [Store.size_writeAll, hsize]) (hwritten s bound hsize hagrees hmap) hdone
    obtain ⟨hsize₂, hagrees₂, models', hmodels'⟩ :=
      ih hsize₁ (hmap ▸ hagrees₁.of_setAll) (start + 1)
    refine ⟨hsize₂, hagrees₂, _, (hmodels.append start hmodels' ?_).congr ?_⟩
    · rintro choices W ⟨i, later, bound, rfl, -⟩
      exact ⟨_, _, rfl, by omega⟩
    · intro choices W
      constructor
      · rintro (⟨later, rfl, hlater⟩ | ⟨i, later, bound', rfl, hbound', hlater⟩)
        · exact ⟨0, later, bound, rfl, rfl, hlater⟩
        · exact ⟨i + 1, later, bound', by rw [Nat.add_right_comm]; rfl, hbound', hlater⟩
      · rintro ⟨i, later, bound', rfl, hbound', hlater⟩
        cases i with
        | zero =>
          obtain rfl : bound = bound' := by simpa using hbound'
          exact Or.inl ⟨later, rfl, hlater⟩
        | succ i =>
          exact Or.inr ⟨i, later, bound', by rw [Nat.add_right_comm]; rfl, hbound', hlater⟩

theorem Enumerates.cons {p : Plan.Program} {depth : Nat} {call : Instance → Explore → Explore}
    (hlayout : Layout env refs size) (hbody : Enumerates env refs size view rest body)
    {stmt : Stmt} {item : List Plan.Op × Option Plan.Transfer}
    (hplan : Plan.StmtPlan env stmt item.1 item.2)
    (hfound : ∀ v ∈ stmt.targets, ∃ w, env.find? v.key = some w)
    (hreads : ∀ v ∈ stmt.reads, v.key ∉ keysOf (stmt :: rest))
    (hnodup : (keysOf (stmt :: rest)).Nodup) :
    Enumerates env refs size view (stmt :: rest) (exploreItem p depth call refs item body) := by
  intro V s found s' hsize hagrees h
  obtain ⟨branches, hcovers, hswept⟩ :=
    exists_branches hplan (hsize ▸ hlayout) (hagrees.sees (hsize ▸ hlayout) hreads) h
  have hkeys : ∀ k ∈ stmt.targets.map (·.key), ∃ w, env.find? k = some w := by
    intro k hk
    obtain ⟨v, hv, rfl⟩ := List.mem_map.mp hk
    exact hfound v hv
  obtain ⟨hsize', hagrees', models, hmodels⟩ :=
    lists_of_swept hlayout hbody hkeys hswept hsize hagrees 0
  refine ⟨hsize', hagrees', ?_⟩
  have hiff := fun {place} => @holds_and_rest_iff V stmt rest branches hcovers hswept.keys hreads
    hnodup place
  cases hgenerator : stmt.isGenerator with
  | true =>
    refine ⟨models, hmodels.congr fun choices W => ?_⟩
    rw [Extends, holdsAll_cons_chosen hgenerator]
    constructor
    · rintro ⟨place, later, bound, rfl, hbound, hlater⟩
      obtain ⟨houtside, hholds, hrest⟩ := (hiff (by simp [hgenerator])).mpr ⟨bound, hbound, hlater⟩
      exact ⟨houtside, place, later, by rw [Nat.zero_add], hholds, hrest⟩
    · rintro ⟨houtside, place, later, rfl, hholds, hrest⟩
      obtain ⟨bound, hbound, hlater⟩ := (hiff (by simp [hgenerator])).mp ⟨houtside, hholds, hrest⟩
      exact ⟨place, later, bound, by rw [Nat.zero_add], hbound, hlater⟩
  | false =>
    -- there is at most one branch
    have hzero : ∀ (i : Nat) bound, branches[i]? = some bound → i = 0 := by
      intro i bound hbound
      have hlt := (List.getElem?_eq_some_iff.mp hbound).1
      have hsingle := hcovers.single hgenerator
      omega
    refine ⟨_, (hmodels.tail ?_).congr fun choices W => ?_⟩
    · rintro choices W ⟨i, later, bound, rfl, hbound, -⟩
      exact ⟨later, by rw [hzero i bound hbound]⟩
    rw [Extends, holdsAll_cons_plain hgenerator, hiff fun _ => rfl]
    constructor
    · rintro ⟨i, later, bound, heq, hbound, hlater⟩
      obtain rfl := hzero i bound hbound
      cases heq
      exact ⟨bound, hbound, hlater⟩
    · rintro ⟨bound, hbound, hlater⟩
      exact ⟨0, choices, bound, rfl, hbound, hlater⟩

/-- **Exploring statements lists their models.** -/
theorem enumerates_foldr {p : Plan.Program} {depth : Nat} {call : Instance → Explore → Explore}
    (hlayout : Layout env refs size) {follow : Explore}
    (hfollow : ∀ V s, s.size = size → Agrees env refs s V [] → follow s = ⟨[view V], .done s⟩)
    {stmts : List Stmt} {items : List (List Plan.Op × Option Plan.Transfer)}
    (hplans : List.Forall₂ (fun stmt item => Plan.StmtPlan env stmt item.1 item.2) stmts items)
    (hfound : ∀ stmt ∈ stmts, ∀ v ∈ stmt.targets, ∃ w, env.find? v.key = some w)
    (hordered : Ordered stmts) (hnodup : (keysOf stmts).Nodup) :
    Enumerates env refs size view stmts (items.foldr (exploreItem p depth call refs) follow) := by
  induction hplans with
  | nil =>
    intro V s found s' hsize hagrees h
    rw [List.foldr_nil, hfollow V s hsize hagrees] at h
    cases h
    refine ⟨hsize, hagrees, [([], V)], rfl, by simp, fun choices W => ?_⟩
    constructor
    · intro hmem
      cases List.mem_singleton.mp hmem
      exact ⟨fun _ _ => rfl, .nil⟩
    · rintro ⟨houtside, hall⟩
      cases hall
      rw [List.mem_singleton, funext fun k => houtside k (by simp [keysOf])]
  | @cons stmt item stmts items hplan _ ih =>
    refine Enumerates.cons hlayout (ih ?_ hordered.2 ?_) hplan (hfound stmt (by simp)) hordered.1
      hnodup
    · exact fun t ht => hfound t (by simp [ht])
    · exact (List.nodup_append.mp (keysOf_cons stmt stmts ▸ hnodup)).2.1

end Search

end CandidateSearch
