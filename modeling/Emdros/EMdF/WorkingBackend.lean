/-
# A backend that works

In a `Working` state no call fails but for what SQL refuses, and nothing in an answer is `NULL`.
The results about runs of statements are for such states, and no operation leaves them.

What the operations do there is followed through a `View`: a part `π` of the tables, the same part
of the tables as they were at `BEGIN`, and a part `c` of the caches.  `Sees` says of an operation
how the view changes when it returns and when it stops; it is `Effect.Shows` with `Working` as the
invariant that is kept beside.  So there is a rule for each call of the backend, and an operation is
followed by the rules for what it is made of.

* A command is known by what it does to `π` (`sees_execCommand`); a select by what it reads off it
  (`sees_answer`).
* A transaction is the same whether it is the operation's own or it runs inside of one that is open
  already.  In the first case an abort brings back the view from before; in the second it does
  nothing.  `sees_transaction` has both.
* What does not touch `π` and `c` at all `Ignores` the view, and needs no lemma for what it does.

The view can be chosen for a purpose; `ObjectView` is the one that is used.
-/
import Emdros.EMdF.Connection

namespace Emdros

open Effect

/-! ## 1. Working states -/

/-- What becomes of a call whose answer is `none` where SQL refuses it. -/
def answer {α : Type} : Option α → Except Failure α
  | some a => .ok a
  | none => .error .returnedFalse

/-- Every call to come succeeds, and the connection knows whether a transaction is open. -/
structure Working (db : EMdFDB) : Prop where
  outcomes : db.outcomes = []
  beginFails : db.beginFails = false
  commitFails : db.commitFails = false
  rollbackFails : db.rollbackFails = false
  inProgress : db.transactionInProgress = db.saved.isSome

namespace Working

variable {db : EMdFDB} {α : Type}

theorem setTables (h : Working db) (t : Tables) : Working { db with tables := t } :=
  ⟨h.outcomes, h.beginFails, h.commitFails, h.rollbackFails, h.inProgress⟩

theorem setCaches (h : Working db) (c : Caches) : Working { db with toCaches := c } :=
  ⟨h.outcomes, h.beginFails, h.commitFails, h.rollbackFails, h.inProgress⟩

/-- With no outcome to come, a call does not change what is to come. -/
theorem tail_outcomes (h : Working db) : { db with outcomes := db.outcomes.tail } = db := by
  rw [h.outcomes, List.tail_nil, ← h.outcomes]

theorem execCommand (h : Working db) (command : Tables → Option Tables) :
    execCommand command db = match command db.tables with
      | some t => (.ok (), { db with tables := t })
      | none => (.error .returnedFalse, db) := by
  unfold Emdros.execCommand
  simp only [h.tail_outcomes]
  rw [h.outcomes]
  cases hc : command db.tables with
  | none => simp only [List.headD_nil]
  | some t =>
    simp only [List.headD_nil, List.tail_nil]

theorem execSelect (h : Working db) (query : Tables → Option α) :
    execSelect query db = (answer (query db.tables), db) := by
  unfold Emdros.execSelect
  simp only [h.tail_outcomes]
  rw [h.outcomes]
  cases hq : query db.tables with
  | none => simp only [List.headD_nil, answer]
  | some a => simp only [List.headD_nil, answer]

theorem accessTuple (h : Working db) : accessTuple db = (.ok (), db) := by
  unfold Emdros.accessTuple
  simp only [h.tail_outcomes]
  rw [h.outcomes]
  rfl

theorem getNextTuple (h : Working db) : getNextTuple db = (.ok (), db) := by
  unfold Emdros.getNextTuple
  simp only [h.tail_outcomes]
  rw [h.outcomes]
  rfl

theorem accessColumns (h : Working db) : ∀ n : Nat, accessColumns n db = (.ok (), db)
  | 0 => rfl
  | n + 1 => by
    rw [Emdros.accessColumns, bind_ok h.accessTuple]
    exact accessColumns h n

theorem accessRows (h : Working db) (columns : Nat) :
    ∀ n : Nat, accessRows columns n db = (.ok (), db)
  | 0 => rfl
  | n + 1 => by
    rw [Emdros.accessRows, bind_ok (h.accessColumns columns), bind_ok h.getNextTuple]
    exact accessRows h columns n

/-- Nothing is caught where nothing is thrown. -/
theorem catchNULLValue {x : DB Unit} (hx : x db = (.ok (), db)) :
    catchNULLValue x db = (.ok (), db) := handle_ok hx _

theorem selectRow (h : Working db) (columns : Nat) (query : Tables → Option (Option α)) :
    selectRow columns query db = (answer (query db.tables), db) := by
  rw [Emdros.selectRow, bind_apply, h.execSelect]
  rcases query db.tables with _ | _ | a
  · rfl
  · rfl
  · change (Emdros.catchNULLValue (Emdros.accessColumns columns) >>= fun _ => pure (some a)) db = _
    rw [bind_ok (catchNULLValue (h.accessColumns columns))]
    rfl

theorem selectRows (h : Working db) (columns : Nat) (query : Tables → Option (List α)) :
    selectRows columns query db = (answer (query db.tables), db) := by
  rw [Emdros.selectRows, bind_apply, h.execSelect]
  rcases query db.tables with _ | rows
  · rfl
  · change (Emdros.catchNULLValue (Emdros.accessRows columns rows.length) >>= fun _ => pure rows) db
      = _
    rw [bind_ok (catchNULLValue (h.accessRows columns rows.length))]
    rfl

end Working

/-! ## 2. Views -/

/-- A part of the tables, of those as they were at `BEGIN`, and of the caches. -/
@[ext]
structure View (τ γ : Type) where
  current : τ
  saved : Option τ
  caches : γ

section View

variable {τ γ : Type} {α : Type} (π : Tables → τ) (c : Caches → γ)

def view (db : EMdFDB) : View τ γ := ⟨π db.tables, db.saved.map π, c db.toCaches⟩

/-- What an operation does in a working state, as far as the view shows it. -/
abbrev Sees (v : View τ γ) (x : DB α) (Q : α → View τ γ → Prop)
    (E : Failure → View τ γ → Prop) : Prop :=
  Shows Working (view π c) v x Q E

variable {π c} {v : View τ γ}

/-- A command that does, as far as the view shows it, what `f` does. -/
theorem sees_execCommand {command : Tables → Option Tables} (f : τ → Option τ)
    (hf : ∀ t, (command t).map π = f (π t)) :
    Sees π c v (execCommand command)
      (fun _ w => ∃ u, f v.current = some u ∧ w = { v with current := u })
      fun e w => e = .returnedFalse ∧ f v.current = none ∧ w = v := by
  refine shows_of_eq (fun db a db' h hv hx => ?_) fun db e db' h hv hx => ?_
  · subst hv
    have hcom := hf db.tables
    rw [h.execCommand] at hx
    cases ht : command db.tables with
    | none => rw [ht] at hx; cases hx
    | some t =>
      rw [ht] at hx hcom
      cases hx
      exact ⟨h.setTables t, π t, hcom.symm, rfl⟩
  · subst hv
    have hcom := hf db.tables
    rw [h.execCommand] at hx
    cases ht : command db.tables with
    | none =>
      rw [ht] at hx hcom
      cases hx
      exact ⟨h, rfl, hcom.symm, rfl⟩
    | some t => rw [ht] at hx; cases hx

/-- A command that may be refused for reasons that the view does not show. -/
theorem sees_execCommand_of {command : Tables → Option Tables} (g : τ → τ)
    (hg : ∀ t t', command t = some t' → π t' = g (π t)) :
    Sees π c v (execCommand command) (fun _ w => w = { v with current := g v.current })
      fun e w => e = .returnedFalse ∧ w = v := by
  refine shows_of_eq (fun db a db' h hv hx => ?_) fun db e db' h hv hx => ?_
  · subst hv
    rw [h.execCommand] at hx
    cases ht : command db.tables with
    | none => rw [ht] at hx; cases hx
    | some t =>
      rw [ht] at hx
      cases hx
      refine ⟨h.setTables t, ?_⟩
      rw [view, hg _ t ht]
      rfl
  · rw [h.execCommand] at hx
    cases ht : command db.tables with
    | none =>
      rw [ht] at hx
      cases hx
      exact ⟨h, rfl, hv⟩
    | some t => rw [ht] at hx; cases hx

/-- A call that only answers, and whose answer the view shows. -/
theorem sees_answer {x : DB α} (r : Option α)
    (hx : ∀ db, Working db → view π c db = v → x db = (answer r, db)) :
    Sees π c v x (fun a w => r = some a ∧ w = v)
      fun e w => e = .returnedFalse ∧ r = none ∧ w = v := by
  refine shows_of_eq (fun db a db' h hv ha => ?_) fun db e db' h hv he => ?_
  · rw [hx db h hv] at ha
    cases r with
    | none => cases ha
    | some r =>
      cases ha
      exact ⟨h, rfl, hv⟩
  · rw [hx db h hv] at he
    cases r with
    | none =>
      cases he
      exact ⟨h, rfl, rfl, hv⟩
    | some r => cases he

theorem sees_execSelect {query : Tables → Option α} (f : τ → Option α)
    (hf : ∀ t, query t = f (π t)) :
    Sees π c v (execSelect query) (fun a w => f v.current = some a ∧ w = v)
      fun e w => e = .returnedFalse ∧ f v.current = none ∧ w = v :=
  sees_answer _ fun db h hv => by rw [h.execSelect, hf, ← hv]; rfl

theorem sees_selectRow {columns : Nat} {query : Tables → Option (Option α)}
    (f : τ → Option (Option α)) (hf : ∀ t, query t = f (π t)) :
    Sees π c v (selectRow columns query) (fun a w => f v.current = some a ∧ w = v)
      fun e w => e = .returnedFalse ∧ f v.current = none ∧ w = v :=
  sees_answer _ fun db h hv => by rw [h.selectRow, hf, ← hv]; rfl

theorem sees_selectRows {columns : Nat} {query : Tables → Option (List α)}
    (f : τ → Option (List α)) (hf : ∀ t, query t = f (π t)) :
    Sees π c v (selectRows columns query) (fun a w => f v.current = some a ∧ w = v)
      fun e w => e = .returnedFalse ∧ f v.current = none ∧ w = v :=
  sees_answer _ fun db h hv => by rw [h.selectRows, hf, ← hv]; rfl

end View

/-! ## 3. Transactions -/

namespace View

variable {τ γ : Type}

/-- After `beginTransaction`. -/
def begun (v : View τ γ) : View τ γ := { v with saved := some (v.saved.getD v.current) }

/-- After the commit of the operation that began at `v`. -/
def committed (v w : View τ γ) : View τ γ := { w with saved := v.saved }

/-- After the abort of the operation that began at `v`. -/
def aborted (v w : View τ γ) : View τ γ :=
  { w with
    current := if v.saved.isNone then v.current else w.current
    saved := v.saved }

@[simp] theorem begun_current (v : View τ γ) : v.begun.current = v.current := rfl

@[simp] theorem begun_caches (v : View τ γ) : v.begun.caches = v.caches := rfl

theorem begun_of_saved {v : View τ γ} {u : τ} (h : v.saved = some u) : v.begun = v := by
  cases v
  subst h
  rfl

theorem committed_of_saved {v w : View τ γ} (h : w.saved = v.saved) : v.committed w = w := by
  cases w
  subst h
  rfl

theorem aborted_of_saved {v w : View τ γ} {u : τ} (hv : v.saved = some u) (h : w.saved = v.saved) :
    v.aborted w = w := by
  cases w
  subst h
  rw [aborted, hv]
  rfl

end View

section Transactions

variable {τ γ : Type} {α : Type} {π : Tables → τ} {c : Caches → γ} {v : View τ γ}

/-- In an open transaction, beginning another does nothing. -/
theorem Working.beginTransaction_of_open {db : EMdFDB} (h : Working db) {t : Tables}
    (hs : db.saved = some t) : beginTransaction db = (false, db) := by
  have hp : db.transactionInProgress = true := by rw [h.inProgress, hs]; rfl
  rw [beginTransaction, if_pos hp]

theorem Working.beginTransaction_of_none {db : EMdFDB} (h : Working db) (hs : db.saved = none) :
    beginTransaction db
      = (true, { db with transactionInProgress := true, saved := some db.tables }) := by
  have hp : ¬ db.transactionInProgress = true := by rw [h.inProgress, hs]; decide
  have hb : ¬ (db.beginFails = true ∨ db.saved.isSome = true) := by
    rw [h.beginFails, hs]
    decide
  rw [beginTransaction, if_neg hp, if_neg hb]

theorem Working.commitTransaction {db : EMdFDB} (h : Working db) {t : Tables}
    (hs : db.saved = some t) :
    commitTransaction db = (true, { db with transactionInProgress := false, saved := none }) := by
  have hp : db.transactionInProgress = true := by rw [h.inProgress, hs]; rfl
  have hc : ¬ (db.commitFails = true ∨ db.saved.isNone = true) := by
    rw [h.commitFails, hs, Option.isNone_some]
    decide
  rw [Emdros.commitTransaction, if_pos hp, if_neg hc]

theorem Working.abortTransaction {db : EMdFDB} (h : Working db) {t : Tables}
    (hs : db.saved = some t) :
    abortTransaction db
      = (true, { db with transactionInProgress := false, saved := none, tables := t }) := by
  have hp : db.transactionInProgress = true := by rw [h.inProgress, hs]; rfl
  rw [Emdros.abortTransaction, if_pos hp, h.rollbackFails, hs]

theorem Working.ended {db : EMdFDB} (h : Working db) (t : Tables) :
    Working { db with transactionInProgress := false, saved := none, tables := t } :=
  ⟨h.outcomes, h.beginFails, h.commitFails, h.rollbackFails, rfl⟩

theorem Working.begun {db : EMdFDB} (h : Working db) :
    Working { db with transactionInProgress := true, saved := some db.tables } :=
  ⟨h.outcomes, h.beginFails, h.commitFails, h.rollbackFails, rfl⟩

/-- How a failure of the body of a transaction ends the operation. -/
def endsWith (v : View τ γ) (E : Failure → View τ γ → Prop) (e : Failure) (w : View τ γ) : Prop :=
  match e with
  | .returnedFalse => E .returnedFalse (v.aborted w)
  | .leaves => E .returnedFalse w
  | e => E e w

theorem endsWith_returnedFalse {E : Failure → View τ γ → Prop} {w : View τ γ} :
    endsWith v E .returnedFalse w = E .returnedFalse (v.aborted w) := rfl

/-- An operation within an open transaction is its body. -/
theorem sees_transaction_of_open {body : DB α} {Q : α → View τ γ → Prop}
    {E : Failure → View τ γ → Prop} {u : τ} (hv : v.saved = some u)
    (hbody : Sees π c v body (fun a w => w.saved = v.saved ∧ Q a (v.committed w))
      fun e w => w.saved = v.saved ∧ endsWith v E e w) :
    Sees π c v (transaction body) Q E := by
  rintro db ⟨h, rfl⟩
  obtain ⟨t, hs, -⟩ := Option.map_eq_some_iff.mp hv
  have hb : beginning db = (.ok false, db) := by
    rw [beginning, h.beginTransaction_of_open hs]
  rw [transaction, bind_ok hb]
  rcases hx : body db with ⟨r, db'⟩
  cases r with
  | ok a =>
    obtain ⟨hw, hsaved, hQ⟩ := Triple.of_ok hbody ⟨h, rfl⟩ hx
    have ho : orAbort false body db = (.ok a, db') := handle_ok hx _
    have hc : commitIf false db' = (.ok (), db') := rfl
    rw [bind_ok ho, bind_ok hc]
    rw [View.committed_of_saved hsaved] at hQ
    exact ⟨hw, hQ⟩
  | error e =>
    obtain ⟨hw, hsaved, hE⟩ := Triple.of_error hbody ⟨h, rfl⟩ hx
    cases e with
    | returnedFalse =>
      have ho : orAbort false body db = (.error .returnedFalse, db') := handle_error hx _
      rw [endsWith_returnedFalse, View.aborted_of_saved hv hsaved] at hE
      rw [bind_error ho]
      exact ⟨hw, hE⟩
    | leaves =>
      have ho : orAbort false body db = (.error .returnedFalse, db') := handle_error hx _
      rw [bind_error ho]
      exact ⟨hw, hE⟩
    | nullValueException =>
      have ho : orAbort false body db = (.error .nullValueException, db') := handle_error hx _
      rw [bind_error ho]
      exact ⟨hw, hE⟩
    | dbError =>
      have ho : orAbort false body db = (.error .dbError, db') := handle_error hx _
      rw [bind_error ho]
      exact ⟨hw, hE⟩

/-- An operation that finds no open transaction commits or aborts its own. -/
theorem sees_transaction_of_none {body : DB α} {Q : α → View τ γ → Prop}
    {E : Failure → View τ γ → Prop} (hv : v.saved = none)
    (hbody : Sees π c v.begun body
      (fun a w => w.saved = v.begun.saved ∧ Q a (v.committed w))
      fun e w => w.saved = v.begun.saved ∧ endsWith v E e w) :
    Sees π c v (transaction body) Q E := by
  rintro db ⟨h, rfl⟩
  have hs : db.saved = none := Option.map_eq_none_iff.mp hv
  have hb : beginning db
      = (.ok true, { db with transactionInProgress := true, saved := some db.tables }) := by
    rw [beginning, h.beginTransaction_of_none hs]
  have hvb : view π c { db with transactionInProgress := true, saved := some db.tables }
      = (view π c db).begun := by
    rw [View.begun, hv]
    rfl
  rw [transaction, bind_ok hb]
  rcases hx : body { db with transactionInProgress := true, saved := some db.tables }
    with ⟨r, db'⟩
  cases r with
  | ok a =>
    obtain ⟨hw, hsaved, hQ⟩ := Triple.of_ok hbody ⟨h.begun, hvb⟩ hx
    obtain ⟨t, ht, -⟩ := Option.map_eq_some_iff.mp hsaved
    have ho : orAbort true body { db with transactionInProgress := true, saved := some db.tables }
        = (.ok a, db') := handle_ok hx _
    have hc : commitIf true db'
        = (.ok (), { db' with transactionInProgress := false, saved := none }) := by
      rw [commitIf, if_pos rfl, hw.commitTransaction ht]
      rfl
    rw [bind_ok ho, bind_ok hc]
    refine ⟨hw.ended db'.tables, ?_⟩
    rw [View.committed, hv] at hQ
    exact hQ
  | error e =>
    obtain ⟨hw, hsaved, hE⟩ := Triple.of_error hbody ⟨h.begun, hvb⟩ hx
    obtain ⟨t, ht, htables⟩ := Option.map_eq_some_iff.mp hsaved
    cases e with
    | returnedFalse =>
      have ho : orAbort true body
          { db with transactionInProgress := true, saved := some db.tables }
          = (.error .returnedFalse,
            { db' with transactionInProgress := false, saved := none, tables := t }) := by
        rw [orAbort, handle_error hx]
        simp only [if_true, hw.abortTransaction ht]
      rw [bind_error ho]
      refine ⟨hw.ended t, ?_⟩
      rw [endsWith_returnedFalse, View.aborted, hv] at hE
      have hcur : π t = π db.tables := by rw [htables, hv]; rfl
      rw [view, hcur]
      exact hE
    | leaves =>
      have ho : orAbort true body
          { db with transactionInProgress := true, saved := some db.tables }
          = (.error .returnedFalse, db') := handle_error hx _
      rw [bind_error ho]
      exact ⟨hw, hE⟩
    | nullValueException =>
      have ho : orAbort true body
          { db with transactionInProgress := true, saved := some db.tables }
          = (.error .nullValueException, db') := handle_error hx _
      rw [bind_error ho]
      exact ⟨hw, hE⟩
    | dbError =>
      have ho : orAbort true body
          { db with transactionInProgress := true, saved := some db.tables }
          = (.error .dbError, db') := handle_error hx _
      rw [bind_error ho]
      exact ⟨hw, hE⟩

/-- The body of a transaction runs in an open one, and what it leaves is committed or aborted by
the operation that began it. -/
theorem sees_transaction {body : DB α} {Q : α → View τ γ → Prop} {E : Failure → View τ γ → Prop}
    (hbody : Sees π c v.begun body
      (fun a w => w.saved = v.begun.saved ∧ Q a (v.committed w))
      fun e w => w.saved = v.begun.saved ∧ endsWith v E e w) :
    Sees π c v (transaction body) Q E := by
  cases hv : v.saved with
  | none => exact sees_transaction_of_none hv hbody
  | some u =>
    rw [View.begun_of_saved hv] at hbody
    exact sees_transaction_of_open hv hbody

theorem sees_beginning_of_open {u : τ} (hv : v.saved = some u) :
    Sees π c v beginning (fun b w => b = false ∧ w = v) fun _ _ => False := by
  rintro db ⟨h, rfl⟩
  obtain ⟨t, hs, -⟩ := Option.map_eq_some_iff.mp hv
  have hb : beginning db = (.ok false, db) := by
    rw [beginning, h.beginTransaction_of_open hs]
  rw [hb]
  exact ⟨h, rfl, rfl⟩

theorem sees_commitIf_false : Sees π c v (commitIf false) (fun _ w => w = v) fun _ _ => False :=
  fun _ h => h

/-- Where nothing fails there is nothing to abort. -/
theorem sees_orAbort {x : DB α} {Q : α → View τ γ → Prop} {bDoCommit : Bool}
    (hx : Sees π c v x Q fun _ _ => False) :
    Sees π c v (orAbort bDoCommit x) Q fun _ _ => False :=
  Shows.handle hx fun _ _ h => h.elim

end Transactions

/-! ## 4. Operations that a view does not show -/

section Ignores

variable {τ γ : Type} {α β : Type}

/-- The operation changes nothing that the view shows, and can only return `false`. -/
def Ignores (π : Tables → τ) (c : Caches → γ) (x : DB α) : Prop :=
  ∀ v, Sees π c v x (fun _ w => w = v) fun e w => e = .returnedFalse ∧ w = v

variable {π : Tables → τ} {c : Caches → γ} {v : View τ γ}

theorem ignores_pure {a : α} : Ignores π c (pure a) := fun _ => shows_pure rfl

theorem ignores_stop : Ignores π c (stop .returnedFalse : DB α) := fun _ => shows_stop ⟨rfl, rfl⟩

theorem ignores_read {f : EMdFDB → α} : Ignores π c (read f) := fun _ =>
  shows_read fun _ _ _ => rfl

theorem ignores_modify {f : EMdFDB → EMdFDB} (hf : ∀ db, Working db → Working (f db))
    (hc : ∀ db, view π c (f db) = view π c db) : Ignores π c (modify f) := fun _ =>
  shows_modify hf fun db _ hv => by rw [hc, hv]

theorem Ignores.bind {x : DB α} {f : α → DB β} (hx : Ignores π c x) (hf : ∀ a, Ignores π c (f a)) :
    Ignores π c (x >>= f) := fun v =>
  (hx v).bind fun a w hw => by
    subst hw
    exact hf a w

theorem Ignores.ite {p : Prop} [Decidable p] {x y : DB α} (hx : Ignores π c x)
    (hy : Ignores π c y) : Ignores π c (if p then x else y) := by
  by_cases hp : p
  · rw [if_pos hp]
    exact hx
  · rw [if_neg hp]
    exact hy

/-- What follows an operation that the view does not show. -/
theorem Ignores.then {x : DB α} {f : α → DB β} {Q : β → View τ γ → Prop}
    {E : Failure → View τ γ → Prop} (hx : Ignores π c x) (hE : E .returnedFalse v)
    (hf : ∀ a, Sees π c v (f a) Q E) : Sees π c v (x >>= f) Q E :=
  Shows.bind
    ((hx v).mono (fun _ _ hw => hw) fun e w hw => by
      obtain ⟨rfl, rfl⟩ := hw
      exact hE)
    fun a w hw => by
      subst hw
      exact hf a

theorem ignores_answer {x : DB α} (f : Tables → Option α)
    (hx : ∀ db, Working db → x db = (answer (f db.tables), db)) : Ignores π c x := by
  intro v
  refine shows_of_eq (fun db a db' h hv ha => ?_) fun db e db' h hv he => ?_
  · rw [hx db h] at ha
    obtain rfl := (Prod.mk.inj ha).2
    exact ⟨h, hv⟩
  · rw [hx db h] at he
    cases hf : f db.tables with
    | none =>
      rw [hf] at he
      cases he
      exact ⟨h, rfl, hv⟩
    | some a =>
      rw [hf] at he
      cases he

theorem ignores_execSelect {query : Tables → Option α} : Ignores π c (execSelect query) :=
  ignores_answer query fun _ h => h.execSelect query

theorem ignores_selectRow {columns : Nat} {query : Tables → Option (Option α)} :
    Ignores π c (selectRow columns query) :=
  ignores_answer query fun _ h => h.selectRow columns query

theorem ignores_execCommand {command : Tables → Option Tables}
    (h : ∀ t t', command t = some t' → π t' = π t) : Ignores π c (execCommand command) := fun _ =>
  (sees_execCommand_of (fun u => u) h).mono (fun _ _ hw => hw) fun _ _ hw => hw

/-- The operation changes nothing that the view shows, and does not fail. -/
def Quiet (π : Tables → τ) (c : Caches → γ) (x : DB α) : Prop :=
  ∀ v, Sees π c v x (fun _ w => w = v) fun _ _ => False

theorem quiet_pure {a : α} : Quiet π c (pure a) := fun _ => shows_pure rfl

theorem Quiet.bind {x : DB α} {f : α → DB β} (hx : Quiet π c x) (hf : ∀ a, Quiet π c (f a)) :
    Quiet π c (x >>= f) := fun v =>
  Shows.bind (hx v) fun a w hw => by
    subst hw
    exact hf a w

theorem Quiet.ite {p : Prop} [Decidable p] {x y : DB α} (hx : Quiet π c x) (hy : Quiet π c y) :
    Quiet π c (if p then x else y) := by
  by_cases hp : p
  · rw [if_pos hp]
    exact hx
  · rw [if_neg hp]
    exact hy

theorem Quiet.handle {x : DB α} {k : Failure → DB α} (hx : Quiet π c x) :
    Quiet π c (handle x k) := fun v =>
  Shows.handle (hx v) fun _ _ hw => hw.elim

theorem quiet_modify {f : EMdFDB → EMdFDB} (hf : ∀ db, Working db → Working (f db))
    (hc : ∀ db, view π c (f db) = view π c db) : Quiet π c (modify f) := fun _ =>
  shows_modify hf fun db _ hv => by rw [hc, hv]

/-- What follows an operation that the view does not show and that does not fail. -/
theorem Quiet.then {x : DB α} {f : α → DB β} {Q : β → View τ γ → Prop}
    {E : Failure → View τ γ → Prop} (hx : Quiet π c x) (hf : ∀ a, Sees π c v (f a) Q E) :
    Sees π c v (x >>= f) Q E :=
  Shows.bind ((hx v).mono (fun _ _ hw => hw) fun _ _ hw => hw.elim) fun a w hw => by
    subst hw
    exact hf a

theorem Quiet.transaction {x : DB α} (hx : Quiet π c x) : Quiet π c (transaction x) := fun v =>
  sees_transaction ((hx v.begun).mono (fun a w hw => by subst hw; exact ⟨rfl, rfl⟩)
    fun _ _ hw => hw.elim)

theorem Quiet.ignores {x : DB α} (hx : Quiet π c x) : Ignores π c x := fun v =>
  (hx v).mono (fun _ _ hw => hw) fun _ _ hw => hw.elim

/-- An answer that SQL always has. -/
theorem quiet_answer {x : DB α} (f : Tables → α)
    (hx : ∀ db, Working db → x db = (.ok (f db.tables), db)) : Quiet π c x := by
  rintro v db ⟨h, hv⟩
  rw [hx db h]
  exact ⟨h, hv⟩

theorem quiet_execSelect {query : Tables → α} : Quiet π c (execSelect fun t => some (query t)) :=
  quiet_answer query fun _ h => h.execSelect _

theorem quiet_selectRows {columns : Nat} {query : Tables → List α} :
    Quiet π c (selectRows columns fun t => some (query t)) :=
  quiet_answer query fun _ h => h.selectRows columns _

theorem quiet_catchNULLValue_accessTuple : Quiet π c (catchNULLValue accessTuple) :=
  quiet_answer (fun _ => ()) fun _ h => Working.catchNULLValue h.accessTuple

/-- A command that SQL never refuses. -/
theorem quiet_execCommand {command : Tables → Tables} (h : ∀ t, π (command t) = π t) :
    Quiet π c (execCommand fun t => some (command t)) := by
  rintro v db ⟨hw, hv⟩
  rw [hw.execCommand]
  exact ⟨hw.setTables _, hv ▸ View.ext (h db.tables) rfl rfl⟩

end Ignores

end Emdros
