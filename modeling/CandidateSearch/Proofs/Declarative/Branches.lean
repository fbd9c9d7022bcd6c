/-
  CandidateSearch/Proofs/Declarative/Branches.lean
  ================================================
  **The branches of a statement.**

  A statement binds its variables in one or several ways and goes on with each of them in
  turn; a test that does not hold has no branch at all.

      X = select([4, 5])    binds  X = 4,  then  X = 5
      test(false)           has no branch
      X_constraint = false  binds  X_constraint = false  and stops there

  If exploring a statement comes to an end, then it has gone through all its branches in
  this way (`exists_branches`), and these are the ways in which the statement can hold.

  The cells of variables that are still to be bound can hold anything: what an earlier
  round has left there.  For all others the store agrees with the values (`Agrees`).
-/
import CandidateSearch.Proofs.Declarative.Planning

namespace CandidateSearch

/-! ### Values and cells -/

namespace Valuation

def set (V : Valuation) (k : Key) (x : Value) : Valuation := fun k' =>
  if k' = k then some x else V k'

def setAll (V : Valuation) : List (Key × Value) → Valuation
  | [] => V
  | (k, x) :: rest => (V.set k x).setAll rest

theorem setAll_of_not_mem {V : Valuation} {bound : List (Key × Value)} {k : Key}
    (h : k ∉ bound.map (·.1)) : V.setAll bound k = V k := by
  induction bound generalizing V with
  | nil => rfl
  | cons p rest ih =>
    simp only [List.map_cons, List.mem_cons, not_or] at h
    rw [setAll, ih h.2, set, if_neg h.1]

theorem setAll_of_mem {V : Valuation} {bound : List (Key × Value)}
    (hnodup : (bound.map (·.1)).Nodup) {p : Key × Value} (hp : p ∈ bound) :
    V.setAll bound p.1 = some p.2 := by
  induction bound generalizing V with
  | nil => cases hp
  | cons first rest ih =>
    obtain ⟨hnot, hrest⟩ := List.nodup_cons.mp hnodup
    rcases List.mem_cons.mp hp with rfl | hp
    · rw [setAll, setAll_of_not_mem hnot, set, if_pos rfl]
    · rw [setAll, ih hrest hp]

end Valuation

theorem Store.value?_write_self {s : Store} {r : Ref} (x : Value) (h : r < s.size) :
    (s.write r x).value? r = some x := by
  simp [Store.value?, Store.cell_write_self x h]

theorem Store.value?_write_of_ne (s : Store) {q r : Ref} (x : Value) (h : q ≠ r) :
    (s.write r x).value? q = s.value? q := by
  simp [Store.value?, Store.cell_write_of_ne s x h]

theorem Store.size_writeAll (s : Store) (writes : List (Ref × Value)) :
    (s.writeAll writes).size = s.size := by
  induction writes generalizing s with
  | nil => rfl
  | cons p rest ih => rw [Store.writeAll, ih, Store.size_write]

namespace Search

open Explore

def cell? (env : Resolved.Env) (refs : Env) (k : Key) : Option Ref :=
  (env.find? k).bind fun w => refs.ref? w.slot

/-- Every variable has a cell of its own. -/
structure Layout (env : Resolved.Env) (refs : Env) (size : Nat) : Prop where
  total : ∀ k w, env.find? k = some w → ∃ r, refs.ref? w.slot = some r ∧ r < size
  distinct : ∀ k k' r, cell? env refs k = some r → cell? env refs k' = some r → k = k'

/-- Outside the variables that are still to be bound, cells hold the values. -/
def Agrees (env : Resolved.Env) (refs : Env) (s : Store) (V : Valuation) (pending : List Key) :
    Prop :=
  ∀ k r, cell? env refs k = some r → k ∉ pending → s.value? r = V k

/-- What is to be written to bind variables. -/
def writesOf (env : Resolved.Env) (refs : Env) (bound : List (Key × Value)) : List (Ref × Value) :=
  bound.map fun p => ((cell? env refs p.1).getD 0, p.2)

variable {env : Resolved.Env} {refs : Env} {s : Store} {V : Valuation} {pending : List Key}

theorem Layout.cell?_eq_some {size : Nat} (h : Layout env refs size) {k : Key} {w : Resolved.Var}
    (hw : env.find? k = some w) : ∃ r, cell? env refs k = some r ∧ refs.ref? w.slot = some r ∧
      r < size := by
  obtain ⟨r, hr, hlt⟩ := h.total k w hw
  exact ⟨r, by simp [cell?, hw, hr], hr, hlt⟩

/-- Binding variables keeps the agreement and extends it to them. -/
theorem Agrees.writeAll {bound : List (Key × Value)} (hlayout : Layout env refs s.size)
    (hbound : ∀ p ∈ bound, ∃ w, env.find? p.1 = some w)
    (h : Agrees env refs s V (bound.map (·.1) ++ pending)) :
    Agrees env refs (s.writeAll (writesOf env refs bound)) (V.setAll bound) pending := by
  induction bound generalizing s V with
  | nil => exact h
  | cons p rest ih =>
    obtain ⟨w, hw⟩ := hbound p (by simp)
    obtain ⟨r, hr, -, hlt⟩ := hlayout.cell?_eq_some hw
    have hcell : (cell? env refs p.1).getD 0 = r := by simp [hr]
    simp only [writesOf, List.map_cons, hcell, Store.writeAll]
    refine ih (by rwa [Store.size_write]) (fun q hq => hbound q (by simp [hq])) ?_
    intro k q hq hk
    by_cases hkey : k = p.1
    · subst hkey
      obtain rfl : q = r := Option.some.inj (hq.symm.trans hr)
      rw [Store.value?_write_self _ hlt, Valuation.set, if_pos rfl]
    · have hne : q ≠ r := fun heq => hkey (hlayout.distinct k p.1 r (heq ▸ hq) hr)
      rw [Store.value?_write_of_ne s _ hne, Valuation.set, if_neg hkey]
      exact h k q hq (by simp_all)

/-- What is bound matters only to those who read it. -/
theorem Agrees.of_setAll {bound : List (Key × Value)}
    (h : Agrees env refs s (V.setAll bound) pending) :
    Agrees env refs s V (bound.map (·.1) ++ pending) := by
  intro k r hr hk
  rw [List.mem_append, not_or] at hk
  rw [h k r hr hk.2, Valuation.setAll_of_not_mem hk.1]

/-- The slots of variables that are bound hold their values. -/
theorem Agrees.sees (hlayout : Layout env refs s.size) (h : Agrees env refs s V pending)
    {vars : List Syntax.Var} (hvars : ∀ v ∈ vars, v.key ∉ pending) :
    Plan.Sees env (refs.reader s) V vars := by
  intro v hv w hw
  obtain ⟨r, hcell, hr, -⟩ := hlayout.cell?_eq_some hw
  have hread : (s.read r).toOption = s.value? r := by
    rw [Store.read]
    cases s.value? r <;> rfl
  rw [← h v.key r hcell (hvars v hv), ← hread]
  simp [Env.reader, Env.ref, hr, bind, Except.bind]

/-! ### Explorations that come to an end -/

section Ends

variable {α : Type} {found : List Solution} {s' : Store}

theorem perform_ofExcept_done {x : Except Fault α} {next : α → Explore}
    (h : perform (Effect.ofExcept x) next s = ⟨found, .done s'⟩) :
    ∃ a, x = .ok a ∧ next a s = ⟨found, .done s'⟩ := by
  cases x with
  | ok a => exact ⟨a, rfl, h⟩
  | error f => cases h

theorem perform_reading_done {f : Plan.Reader → Except Fault α} {next : α → Explore}
    (h : perform (refs.reading f) next s = ⟨found, .done s'⟩) :
    ∃ a, f (refs.reader s) = .ok a ∧ next a s = ⟨found, .done s'⟩ := by
  have hreading : perform (refs.reading f) next s =
      perform (Effect.ofExcept (f (refs.reader s))) next s := rfl
  exact perform_ofExcept_done (hreading ▸ h)

theorem also_done {first second : Explore} (h : first.also second s = ⟨found, .done s'⟩) :
    ∃ before s₁ after, first s = ⟨before, .done s₁⟩ ∧ second s₁ = ⟨after, .done s'⟩ ∧
      found = before ++ after := by
  rcases hfirst : first s with ⟨before, ending⟩
  rw [also, hfirst] at h
  cases ending with
  | done s₁ =>
    rcases hsecond : second s₁ with ⟨after, ending⟩
    simp only [Sweep.andThen_done, hsecond, Sweep.mk.injEq] at h
    obtain ⟨rfl, rfl⟩ := h
    exact ⟨before, s₁, after, rfl, hsecond, rfl⟩
  | fault f => cases h
  | cut => cases h

end Ends

/-! ### Binding a target -/

/-- To bind the variables in this way is to give the target this value. -/
def Fits (target : Syntax.Expr) (x : Value) (bound : List (Key × Value)) : Prop :=
  bound.map (·.1) = target.targets.map (·.key) ∧
    ∀ W : Valuation, target.Gets W x ↔ ∀ p ∈ bound, W p.1 = some p.2

theorem Fits.eq_single {v : Syntax.Var} {x : Value} {bound : List (Key × Value)}
    (h : Fits (.var v) x bound) : bound = [(v.key, x)] := by
  obtain ⟨⟨k, y⟩, rfl, hk⟩ := List.map_eq_singleton_iff.mp h.1
  obtain rfl : k = v.key := hk
  have hgets : some x = some y := by simpa [Syntax.Expr.Gets] using (h.2 fun _ => some x).mp rfl
  rw [Option.some.inj hgets]

theorem cell?_eq_of_ref {k : Key} {w : Resolved.Var} {r : Ref} (hw : env.find? k = some w)
    (hr : refs.ref w.slot = .ok r) : cell? env refs k = some r := by
  unfold Env.ref at hr
  cases hslot : refs.ref? w.slot with
  | none => simp [hslot] at hr
  | some q =>
    simp only [hslot, Except.ok.injEq] at hr
    simp [cell?, hw, hslot, hr]

theorem refs_eq_cells {vs : List Syntax.Var} {ws : List Resolved.Var} {rs : List Ref}
    (hfound : Resolved.Found env vs ws) (h : refs.refs (ws.map (·.slot)) = .ok rs) :
    rs = vs.map fun v => (cell? env refs v.key).getD 0 := by
  induction hfound generalizing rs with
  | nil =>
    cases h
    rfl
  | @cons v w vs ws hw hfound ih =>
    simp only [List.map_cons, Env.refs, bind_eq_ok, pure_eq_ok] at h
    obtain ⟨r, hr, rest, hrest, rfl⟩ := h
    simp [cell?_eq_of_ref hw hr, ih hrest]

theorem fits_of_writes {target : Syntax.Expr} {t : Resolved.Target} {binder : Binder} {x : Value}
    {writes : List (Ref × Value)} (ht : env.target target = .ok t)
    (hbinder : refs.binder (.ofResolved t) = .ok binder) (hwrites : binder.writes x = .ok writes) :
    ∃ bound, Fits target x bound ∧ writes = writesOf env refs bound := by
  rcases Resolved.target_cases ht with ⟨v, w, rfl, rfl, hw⟩ | ⟨members, span, vs, rfl, rfl, hvs⟩
  · obtain ⟨r, hr, rfl⟩ := map_eq_ok.mp hbinder
    cases hwrites
    refine ⟨[(v.key, x)], ⟨rfl, fun W => by simp [Syntax.Expr.Gets]⟩, ?_⟩
    simp [writesOf, cell?_eq_of_ref hw hr]
  · obtain ⟨rs, hrs, rfl⟩ := map_eq_ok.mp hbinder
    obtain rfl := refs_eq_cells (Resolved.found_targets hvs span) hrs
    cases x with
    | vector items =>
      simp only [Binder.writes, List.length_map] at hwrites
      split at hwrites
      · rename_i hlength
        cases hwrites
        generalize hkeys : Syntax.Expr.targets (.vector members span) = keys at *
        refine ⟨(keys.map (·.key)).zip items, ⟨?_, fun W => ?_⟩, ?_⟩
        · rw [List.map_fst_zip (by simp [hlength]), hkeys]
        · simp only [Syntax.Expr.Gets, hkeys, List.forall₂_iff_zip, hlength, List.zip_map_left]
          constructor
          · rintro ⟨-, hall⟩ p hp
            obtain ⟨⟨v, item⟩, hmem, rfl⟩ := List.mem_map.mp hp
            exact hall hmem
          · intro hall
            exact ⟨trivial, fun hmem => hall _ (List.mem_map_of_mem hmem)⟩
        · simp only [writesOf, List.zip_map_left, List.map_map]
          rfl
      · cases hwrites
    | _ => cases hwrites

theorem perform_bind_done {target : Syntax.Expr} {t : Resolved.Target} {binder : Binder}
    {x : Value} {next : Unit → Explore} {found : List Solution} {s' : Store}
    (ht : env.target target = .ok t) (hbinder : refs.binder (.ofResolved t) = .ok binder)
    (h : perform (binder.bind x) next s = ⟨found, .done s'⟩) :
    ∃ bound, Fits target x bound ∧
      next () (s.writeAll (writesOf env refs bound)) = ⟨found, .done s'⟩ := by
  rw [Binder.bind, perform_bind] at h
  obtain ⟨writes, hwrites, h⟩ := perform_ofExcept_done h
  obtain ⟨bound, hfits, rfl⟩ := fits_of_writes ht hbinder hwrites
  exact ⟨bound, hfits, h⟩

/-! ### Going through branches -/

/-- The body has been explored once for each way to bind the variables, in order.  A
    binding can also be dropped as soon as it is made. -/
inductive Swept (env : Resolved.Env) (refs : Env) (keys : List Key) (body : Explore) :
    List (List (Key × Value)) → Store → List Solution → Store → Prop where
  | nil {s : Store} : Swept env refs keys body [] s [] s
  | dropped {bound : List (Key × Value)} {s : Store} : bound.map (·.1) = keys →
      Swept env refs keys body [] s [] (s.writeAll (writesOf env refs bound))
  | cons {bound : List (Key × Value)} {branches : List (List (Key × Value))} {s s₁ s₂ : Store}
      {found later : List Solution} : bound.map (·.1) = keys →
      body (s.writeAll (writesOf env refs bound)) = ⟨found, .done s₁⟩ →
      Swept env refs keys body branches s₁ later s₂ →
      Swept env refs keys body (bound :: branches) s (found ++ later) s₂

variable {body : Explore} {found : List Solution} {s' : Store}

theorem Swept.single {keys : List Key} {bound : List (Key × Value)} (hkeys : bound.map (·.1) = keys)
    (h : body (s.writeAll (writesOf env refs bound)) = ⟨found, .done s'⟩) :
    Swept env refs keys body [bound] s found s' := by
  have hone := Swept.cons hkeys h .nil
  rwa [List.append_nil] at hone

theorem swept_forEach {target : Syntax.Expr} {t : Resolved.Target} {binder : Binder}
    (ht : env.target target = .ok t) (hbinder : refs.binder (.ofResolved t) = .ok binder)
    {items : List Value} (h : forEach binder body items s = ⟨found, .done s'⟩) :
    ∃ branches, List.Forall₂ (Fits target) items branches ∧
      Swept env refs (target.targets.map (·.key)) body branches s found s' := by
  induction items generalizing s found with
  | nil =>
    cases h
    exact ⟨[], .nil, .nil⟩
  | cons x rest ih =>
    obtain ⟨before, s₁, after, hfirst, hrest, rfl⟩ := also_done h
    obtain ⟨bound, hfits, hbody⟩ := perform_bind_done ht hbinder hfirst
    obtain ⟨branches, hall, hswept⟩ := ih hrest
    exact ⟨bound :: branches, .cons hfits hall, .cons hfits.1 hbody hswept⟩

theorem swept_countUp {v : Syntax.Var} {r : Ref} (hcell : cell? env refs v.key = some r)
    {last step current : Decimal} {rounds : Nat}
    (h : countUp r last step body rounds current s = ⟨found, .done s'⟩) :
    ∃ xs branches, List.Forall₂ (Fits (.var v)) xs branches ∧
      Swept env refs [v.key] body branches s found s' ∧
      ∀ place, xs[place]? = (Syntax.rangeAt last step place current).bind fun d =>
        (Value.ofDecimal? d).toOption := by
  induction rounds generalizing current s found with
  | zero => cases h
  | succ rounds ih =>
    rw [countUp] at h
    split at h
    · rename_i hle
      obtain ⟨before, s₁, after, hfirst, hrest, rfl⟩ := also_done h
      rw [assignNumber, perform_bind] at hfirst
      obtain ⟨x, hx, hfirst⟩ := perform_ofExcept_done hfirst
      obtain ⟨xs, branches, hall, hswept, hplaces⟩ := ih hrest
      have hfits : Fits (.var v) x [(v.key, x)] := ⟨rfl, fun W => by simp [Syntax.Expr.Gets]⟩
      have hwrite : s.write r x = s.writeAll (writesOf env refs [(v.key, x)]) := by
        simp [writesOf, hcell, Store.writeAll]
      refine ⟨x :: xs, [(v.key, x)] :: branches, .cons hfits hall,
        .cons rfl (hwrite ▸ hfirst) hswept, fun place => ?_⟩
      cases place with
      | zero => simp [Syntax.rangeAt, hle, hx, Except.toOption]
      | succ place => simp [Syntax.rangeAt, hle, hplaces place]
    · rename_i hgt
      cases h
      refine ⟨[], [], .nil, .nil, fun place => ?_⟩
      cases place <;> simp [Syntax.rangeAt, hgt]

/-! ### The branches of a statement -/

/-- These are the ways in which the statement can hold, if what it reads has these values. -/
structure Covers (stmt : Syntax.Stmt) (V : Valuation) (branches : List (List (Key × Value))) :
    Prop where
  single : stmt.isGenerator = false → branches.length ≤ 1
  holds_iff : ∀ W : Valuation, (∀ v ∈ stmt.reads, W v.key = V v.key) →
    ∀ place, (stmt.isGenerator = false → place = 0) →
      (stmt.Holds W place ↔
        ∃ bound, branches[place]? = some bound ∧ ∀ p ∈ bound, W p.1 = some p.2)

theorem forall₂_getElem? {α β : Type} {R : α → β → Prop} {xs : List α} {ys : List β}
    (h : List.Forall₂ R xs ys) (i : Nat) :
    (xs[i]? = none ∧ ys[i]? = none) ∨ ∃ x y, xs[i]? = some x ∧ ys[i]? = some y ∧ R x y := by
  induction h generalizing i with
  | nil => exact Or.inl ⟨rfl, rfl⟩
  | cons hxy _ ih =>
    cases i with
    | zero => exact Or.inr ⟨_, _, rfl, rfl, hxy⟩
    | succ i => simpa using ih i

theorem covers_assign {target : Syntax.Expr} {rhs : Syntax.Rhs} {span : Source.Span}
    {xs : List Value} {branches : List (List (Key × Value))}
    (hfits : List.Forall₂ (Fits target) xs branches)
    (hsingle : rhs.isGenerator = false → xs.length ≤ 1)
    (hplaces : ∀ place, (rhs.isGenerator = false → place = 0) → rhs.value V place = xs[place]?)
    (htruth : Syntax.Stmt.demandsTruth ⟨.assign target rhs, span⟩ = true →
      ∀ x ∈ xs, x = .bool true) :
    Covers ⟨.assign target rhs, span⟩ V branches := by
  refine ⟨fun h => hfits.length_eq ▸ hsingle h, fun W hW place hplace => ?_⟩
  have hvalue : rhs.value W place = xs[place]? := by
    rw [rhs.value_congr hW place, hplaces place hplace]
  simp only [Syntax.Stmt.Holds, hvalue]
  rcases forall₂_getElem? hfits place with ⟨hx, hbound⟩ | ⟨x, bound, hx, hbound, hfit⟩
  · simp [hx, hbound]
  · simp only [hx, hbound, Option.some.injEq]
    constructor
    · rintro ⟨x, rfl, hgets, -⟩
      exact ⟨bound, rfl, (hfit.2 W).mp hgets⟩
    · rintro ⟨bound, rfl, hall⟩
      exact ⟨x, rfl, (hfit.2 W).mpr hall, fun h => htruth h x (List.mem_of_getElem? hx)⟩

theorem covers_single {target : Syntax.Expr} {rhs : Syntax.Rhs} {span : Source.Span} {x : Value}
    {bound : List (Key × Value)} (hfits : Fits target x bound) (hrhs : rhs.isGenerator = false)
    (hvalue : rhs.value V 0 = some x)
    (htruth : Syntax.Stmt.demandsTruth ⟨.assign target rhs, span⟩ = true → x = .bool true) :
    Covers ⟨.assign target rhs, span⟩ V [bound] := by
  refine covers_assign (.cons hfits .nil) (by simp) ?_ (by simpa using htruth)
  intro place hplace
  rw [hplace hrhs, hvalue]
  rfl

variable {p : Plan.Program} {depth : Nat} {call : Instance → Explore → Explore}

theorem perform_runOps_single (op : Plan.Op) (next : Bool → Explore) :
    perform (runOps refs [op]) next = perform (runOp refs op) next := by
  rw [runOps, perform_bind]
  congr 1
  funext holds
  cases holds <;> rfl

theorem perform_assign_done {target : Syntax.Expr} {t : Resolved.Target} {q : Plan.Expr}
    {next : Bool → Explore} (ht : env.target target = .ok t)
    (h : perform (runOp refs (.assign (.ofResolved t) q)) next s = ⟨found, .done s'⟩) :
    ∃ x bound, q.evalValue (refs.reader s) = .ok x ∧ Fits target x bound ∧
      next true (s.writeAll (writesOf env refs bound)) = ⟨found, .done s'⟩ := by
  rw [runOp, perform_bind] at h
  obtain ⟨binder, hbinder, h⟩ := perform_ofExcept_done h
  rw [perform_bind] at h
  obtain ⟨x, hx, h⟩ := perform_reading_done h
  rw [perform_bind] at h
  obtain ⟨bound, hfits, h⟩ := perform_bind_done ht hbinder h
  exact ⟨x, bound, hx, hfits, h⟩

theorem eq_bool_of_evalBool {read : Plan.Reader} {slot : Slot} {x : Value} {holds : Bool}
    (hread : read slot = .ok x) (h : (Plan.Expr.var slot).evalBool read = .ok holds) :
    x = .bool holds := by
  simp only [Plan.Expr.evalBool, Plan.Expr.eval, bind_eq_ok, hread, Except.ok.injEq] at h
  obtain ⟨operand, ⟨_, rfl, hoperand⟩, h⟩ := h
  cases x with
  | number d =>
    obtain ⟨d, -, rfl⟩ := map_eq_ok.mp hoperand
    cases h
  | bool b =>
    cases hoperand
    cases h
    rfl
  | _ =>
    cases hoperand
    cases h

theorem constraint_branches {v : Syntax.Var} {e : Syntax.Expr} {span : Source.Span}
    {w : Resolved.Var} {q : Plan.Expr}
    (htruth : Syntax.Stmt.demandsTruth ⟨.assign (.var v) (.expr e), span⟩ = true)
    (hlayout : Layout env refs s.size) (hw : env.find? v.key = some w) (hq : Plan.Lowers env e q)
    (hsees : Plan.Sees env (refs.reader s) V e.vars)
    (h : exploreItem p depth call refs
      ([.assign (.single w.slot) q, .check (.var w.slot)], none) body s = ⟨found, .done s'⟩) :
    ∃ branches, Covers ⟨.assign (.var v) (.expr e), span⟩ V branches ∧
      Swept env refs [v.key] body branches s found s' := by
  have ht : env.target (.var v) = .ok (.single w) := by
    simp [Resolved.Env.target, Resolved.Env.var_eq_ok.mpr hw, bind, Except.bind, pure, Except.pure]
  rw [exploreItem, runOps, perform_bind] at h
  obtain ⟨x, bound, hx, hfits, h⟩ := perform_assign_done ht h
  have hvalue := Plan.toOption_evalValue hq hsees
  rw [hx] at hvalue
  -- the check reads what has just been written
  have hread : refs.reader (s.writeAll (writesOf env refs bound)) w.slot = .ok x := by
    obtain ⟨r, hcell, hr, hlt⟩ := hlayout.cell?_eq_some hw
    simp [hfits.eq_single, writesOf, hcell, Store.writeAll, Env.reader, Env.ref, hr, Store.read,
      Store.value?_write_self x hlt, bind, Except.bind]
  rw [if_pos rfl, perform_runOps_single, runOp] at h
  obtain ⟨holds, hholds, h⟩ := perform_reading_done h
  obtain rfl := eq_bool_of_evalBool hread hholds
  cases holds with
  | true =>
    exact ⟨[bound], covers_single hfits rfl hvalue.symm fun _ => rfl, .single hfits.1 h⟩
  | false =>
    cases h
    refine ⟨[], ⟨by simp, fun W hW place _ => ?_⟩, .dropped hfits.1⟩
    have hfalse : (Syntax.Rhs.expr e).value W place = some (.bool false) :=
      (Syntax.Rhs.value_congr (.expr e) hW place).trans hvalue.symm
    simp [Syntax.Stmt.Holds, hfalse, htruth]

theorem cases_branches {target : Syntax.Expr} {arms : List (Syntax.Expr × Syntax.Expr)}
    {span span' : Source.Span} {t : Resolved.Target} {qs : List (Plan.Expr × Plan.Expr)}
    (ht : env.target target = .ok t) (hqs : Plan.LowersArms env arms qs)
    (hsees : Plan.Sees env (refs.reader s) V (Syntax.Rhs.cases arms span').vars)
    (h : exploreItem p depth call refs ([.cases (.ofResolved t) qs], none) body s =
      ⟨found, .done s'⟩) :
    ∃ branches, Covers ⟨.assign target (.cases arms span'), span⟩ V branches ∧
      Swept env refs (target.targets.map (·.key)) body branches s found s' := by
  rw [exploreItem, perform_runOps_single, runOp, perform_bind] at h
  obtain ⟨result, hresult, h⟩ := perform_reading_done h
  have hfound := Plan.toOption_firstMatch hqs hsees
  rw [hresult] at hfound
  have hvalue : ∀ place, (Syntax.Rhs.cases arms span').value V place = result := by
    intro place
    rw [Syntax.Rhs.value, ← hfound]
    rfl
  cases result with
  | none =>
    cases h
    refine ⟨[], covers_assign .nil (by simp) ?_ (by simp), .nil⟩
    intro place _
    simp [hvalue]
  | some x =>
    rw [perform_bind] at h
    obtain ⟨binder, hbinder, h⟩ := perform_ofExcept_done h
    rw [perform_bind] at h
    obtain ⟨bound, hfits, h⟩ := perform_bind_done ht hbinder h
    exact ⟨[bound], covers_single hfits rfl (hvalue 0) (by simp [Syntax.Stmt.demandsTruth]),
      .single hfits.1 h⟩

theorem test_branches {condition : Syntax.Expr} {span : Source.Span} {q : Plan.Expr}
    (hq : Plan.Lowers env condition q) (hsees : Plan.Sees env (refs.reader s) V condition.vars)
    (h : exploreItem p depth call refs ([.check q], none) body s = ⟨found, .done s'⟩) :
    ∃ branches, Covers ⟨.test condition, span⟩ V branches ∧
      Swept env refs [] body branches s found s' := by
  rw [exploreItem, perform_runOps_single, runOp] at h
  obtain ⟨holds, hholds, h⟩ := perform_reading_done h
  have htruth := Plan.toOption_evalBool hq hsees
  rw [hholds] at htruth
  have hcongr : ∀ W : Valuation, (∀ v ∈ condition.vars, W v.key = V v.key) →
      condition.truth W = some holds := by
    intro W hW
    rw [Syntax.Expr.truth, condition.value_congr hW]
    exact htruth.symm
  cases holds with
  | true =>
    refine ⟨[[]], ⟨by simp, fun W hW place hplace => ?_⟩, .single rfl h⟩
    rw [hplace rfl]
    simp [Syntax.Stmt.Holds, hcongr W hW]
  | false =>
    cases h
    refine ⟨[], ⟨by simp, fun W hW place hplace => ?_⟩, .nil⟩
    simp [Syntax.Stmt.Holds, hcongr W hW]

theorem range_branches {v : Syntax.Var} {first last step : Syntax.Expr} {span span' : Source.Span}
    {w : Resolved.Var} {qfirst qlast qstep : Plan.Expr} (hw : env.find? v.key = some w)
    (hfirst : Plan.Lowers env first qfirst) (hlast : Plan.Lowers env last qlast)
    (hstep : Plan.Lowers env step qstep)
    (hsees : Plan.Sees env (refs.reader s) V (first.vars ++ last.vars ++ step.vars))
    (h : exploreItem p depth call refs ([], some (.range w.slot qfirst qlast qstep)) body s =
      ⟨found, .done s'⟩) :
    ∃ branches, Covers ⟨.assign (.var v) (.range first last step span'), span⟩ V branches ∧
      Swept env refs [v.key] body branches s found s' := by
  obtain ⟨r, hr, h⟩ := perform_ofExcept_done h
  obtain ⟨dfirst, hdfirst, h⟩ := perform_reading_done h
  obtain ⟨dlast, hdlast, h⟩ := perform_reading_done h
  obtain ⟨dstep, hdstep, h⟩ := perform_reading_done h
  have hvfirst := Plan.toOption_evalNumber hfirst (hsees.mono fun v hv => by simp [hv])
  have hvlast := Plan.toOption_evalNumber hlast (hsees.mono fun v hv => by simp [hv])
  have hvstep := Plan.toOption_evalNumber hstep (hsees.mono fun v hv => by simp [hv])
  rw [hdfirst] at hvfirst
  rw [hdlast] at hvlast
  rw [hdstep] at hvstep
  split at h
  · cases h
  · rename_i hpositive
    obtain ⟨xs, branches, hfits, hswept, hplaces⟩ := swept_countUp (cell?_eq_of_ref hw hr) h
    refine ⟨branches, covers_assign hfits (by rintro ⟨⟩) ?_ (by rintro ⟨⟩), hswept⟩
    intro place _
    rw [Syntax.Rhs.value, ← hvfirst, ← hvlast, ← hvstep, hplaces place]
    simp [Except.toOption, hpositive]

theorem select_branches {target list : Syntax.Expr} {span span' : Source.Span}
    {t : Resolved.Target} {q : Plan.Expr} (ht : env.target target = .ok t)
    (hq : Plan.Lowers env list q) (hsees : Plan.Sees env (refs.reader s) V list.vars)
    (h : exploreItem p depth call refs ([], some (.member (.ofResolved t) q)) body s =
      ⟨found, .done s'⟩) :
    ∃ branches, Covers ⟨.assign target (.select list span'), span⟩ V branches ∧
      Swept env refs (target.targets.map (·.key)) body branches s found s' := by
  obtain ⟨x, hx, h⟩ := perform_reading_done h
  obtain ⟨items, hitems, h⟩ := perform_ofExcept_done h
  obtain ⟨binder, hbinder, h⟩ := perform_ofExcept_done h
  obtain ⟨branches, hfits, hswept⟩ := swept_forEach ht hbinder h
  have hvalue := Plan.toOption_evalValue hq hsees
  rw [hx] at hvalue
  refine ⟨branches, covers_assign hfits (by rintro ⟨⟩) ?_
    (by simp [Syntax.Stmt.demandsTruth]), hswept⟩
  intro place _
  rw [Syntax.Rhs.value, ← hvalue]
  simp [Except.toOption, hitems]

/-- **Exploring a statement is going through its branches.** -/
theorem exists_branches {stmt : Syntax.Stmt} {ops : List Plan.Op} {transfer : Option Plan.Transfer}
    (hplan : Plan.StmtPlan env stmt ops transfer) (hlayout : Layout env refs s.size)
    (hsees : Plan.Sees env (refs.reader s) V stmt.reads)
    (h : exploreItem p depth call refs (ops, transfer) body s = ⟨found, .done s'⟩) :
    ∃ branches, Covers stmt V branches ∧
      Swept env refs (stmt.targets.map (·.key)) body branches s found s' := by
  cases hplan with
  | assign htruth ht hq =>
    rw [exploreItem, perform_runOps_single] at h
    obtain ⟨x, bound, hx, hfits, h⟩ := perform_assign_done ht h
    have hvalue := Plan.toOption_evalValue hq hsees
    rw [hx] at hvalue
    exact ⟨[bound], covers_single hfits rfl hvalue.symm (by simp [htruth]), .single hfits.1 h⟩
  | constraint htruth hw hq => exact constraint_branches htruth hlayout hw hq hsees h
  | cases ht hqs => exact cases_branches ht hqs hsees h
  | test hq => exact test_branches hq hsees h
  | range hw hfirst hlast hstep => exact range_branches hw hfirst hlast hstep hsees h
  | select ht hq => exact select_branches ht hq hsees h

end Search

end CandidateSearch
