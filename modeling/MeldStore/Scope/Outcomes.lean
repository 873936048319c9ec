import MeldStore.Scope.Applications

namespace MeldStore

open Library.Raising

namespace Scope

variable {ω ρ : Type}

-- A catalog between transactions
structure Ready (s : State ω ρ) : Prop where
  active : s.active = none
  closed : s.closed = false
  broken : s.broken = false
  pending : s.connection.pending = none
  expired : ∀ (i : ℕ) (t : Transaction), s.transactions[i]? = some t → t.live = false

-- A catalog that is quarantined or closed
structure Spent (s : State ω ρ) : Prop where
  active : s.active = none
  unusable : s.closed = true ∨ s.broken = true

-- The beginning

structure Entered (adapter : Adapter ω ρ) (write : Bool) (s : State ω ρ) (opened : Opened)
    (t : State ω ρ) : Prop where
  within : Within opened.tx t
  fresh : t.failed opened.tx = false
  pending : t.connection.pending = some []
  durable : t.connection.durable = s.connection.durable
  reads : write = false → t.connection.readOnly = true
  remembers : adapter.Remembers write opened.previous s.connection.readOnly t.connection
  expired : ∀ (i : ℕ) (x : Transaction), t.transactions[i]? = some x → x.live = true → i = opened.tx

theorem requireInactive_idle {s : State ω ρ} (h : s.active = none) (text : String)
    {raised : Raised → State ω ρ → Prop} :
    Yields (requireInactive text) s (fun _ t => s = t) raised := by
  rw [requireInactive]
  refine Yields.after_get ?_
  rw [h]
  exact Yields.of_pure rfl

-- A start that does not succeed leaves the catalog ready, or quarantines it.
def NotEntered (s : State ω ρ) (e : Raised) (t : State ω ρ) : Prop :=
  t.connection.durable = s.connection.durable ∧
    ((Ready t ∧ t.connection.readOnly = s.connection.readOnly) ∨
      (Spent t ∧ t.outcomeError = some e ∧ e.reports ≠ none ∧ ¬Says e .committed))

theorem enter_yields {adapter : Adapter ω ρ} (hadapter : adapter.Promises) (write : Bool)
    {s : State ω ρ} (hs : Ready s) :
    Yields (enter adapter write) s (fun opened t => Entered adapter write s opened t) (NotEntered s) := by
  rw [enter]
  refine Yields.bind (check_yields hs.closed hs.broken) ?_
  rintro _ _ rfl
  refine Yields.bind (requireInactive_idle hs.active _) ?_
  rintro _ _ rfl
  refine Yields.bind ((adapter_begin_yields hadapter write hs.pending).mono (fun _ _ h => h) ?_) ?_
  · rintro e t (⟨d, rfl, hdurable, hpending, hread⟩ | ⟨d, rfl, hdurable, hreports, hnot⟩)
    · exact ⟨hdurable, .inl ⟨⟨hs.active, hs.closed, hs.broken, hpending, hs.expired⟩, hread⟩⟩
    · exact ⟨hdurable, .inr ⟨⟨hs.active, .inr rfl⟩, rfl, hreports, hnot⟩⟩
  · rintro previous t ⟨⟨d, rfl, hdurable, hpending, hreads⟩, hremembers⟩
    have hlast :
      (s.transactions ++ [({ failed := false, live := true } : Transaction)])[s.transactions.length]? =
        some { failed := false, live := true } := List.getElem?_concat_length
    exact {
      within := ⟨rfl, hs.closed, hs.broken, ⟨_, hlast, rfl⟩, fun _ => ⟨[], hpending⟩⟩
      fresh := by
        rw [State.failed]
        exact congrArg (fun t => (Option.map Transaction.failed t).getD false) hlast
      pending := hpending
      durable := hdurable
      reads := hreads
      remembers := hremembers
      expired := by
        intro i x hx hlive
        by_contra hne
        have hi : i < s.transactions.length := by
          have hlength := (List.getElem?_eq_some_iff.mp hx).1
          have htotal : (s.transactions ++ [({ failed := false, live := true } : Transaction)]).length =
              s.transactions.length + 1 := List.length_append
          have hbound : i < s.transactions.length + 1 := htotal ▸ hlength
          have hother : i ≠ s.transactions.length := hne
          omega
        have hold : (s.transactions ++ [({ failed := false, live := true } : Transaction)])[i]? =
          s.transactions[i]? :=
          List.getElem?_append_left hi
        rw [hs.expired i x (hold.symm.trans hx)] at hlive
        cases hlive }

-- The end

def failedError : Raised := .error (.TransactionError "Failed transaction cannot commit")

theorem bodyResult_error (s : State ω ρ) (tx : ℕ) (e : Raised) :
    bodyResult s tx (.error e : Except Raised ρ) = .error e := rfl

theorem bodyResult_ok (s : State ω ρ) (tx : ℕ) (value : ρ) :
    bodyResult s tx (.ok value) = if s.failed tx then .error failedError else .ok value := by
  cases h : s.failed tx <;> simp [bodyResult, h, failedError, throw, throwThe, MonadExceptOf.throw, bind,
    Except.bind, pure, Except.pure]

def State.expire (s : State ω ρ) (tx : ℕ) : State ω ρ :=
  { s with transactions := s.transactions.modify tx fun t => { t with live := false }, active := none }

theorem leave_of_finish {adapter : Adapter ω ρ} {write : Bool} {opened : Opened} {body : Except Raised ρ}
    {s : State ω ρ} {returned : ρ → State ω ρ → Prop} {raised : Raised → State ω ρ → Prop}
    (h : Yields (adapter.finish write opened.previous (bodyResult s opened.tx body)) s
      (fun a t => returned a (t.expire opened.tx)) fun e t => raised e (t.expire opened.tx)) :
    Yields (leave adapter write opened body) s returned raised := by
  rw [leave]
  refine Yields.after_get (Yields.after_attempt (h.mono ?_ ?_))
  · intro a t ha
    exact Yields.after_modify (Yields.of_pure ha)
  · intro e t he
    exact Yields.after_modify (Yields.of_throw he)

theorem expired_expire {s : State ω ρ} {tx : ℕ}
    (h : ∀ (i : ℕ) (x : Transaction), s.transactions[i]? = some x → x.live = true → i = tx) (i : ℕ)
      (x : Transaction) (hx : (s.expire tx).transactions[i]? = some x) : x.live = false := by
  rw [State.expire] at hx
  dsimp only at hx
  rw [List.getElem?_modify] at hx
  obtain ⟨y, hy, rfl⟩ := Option.map_eq_some_iff.mp hx
  by_cases hi : tx = i
  · rw [if_pos hi]
  · rw [if_neg hi]
    by_contra hlive
    exact hi (h i y hy (Bool.not_eq_false _ ▸ hlive)).symm

-- What an error of a transaction tells: the body has raised or failed, nothing is durable and the
-- catalog is as before; or the catalog is quarantined with it.
def Raises (adapter : Adapter ω ρ) (readOnly : Bool) (body : Except Raised ρ) (failed : Bool)
    (durable writes : List ω) (e : Raised) (t : State ω ρ) : Prop :=
  (Ready t ∧ t.connection.durable = durable ∧ adapter.Keeps readOnly t.connection ∧
      (body = .error e ∨ body.isOk = true ∧ failed = true ∧ e = failedError)) ∨
    (Spent t ∧ t.broken = true ∧ t.outcomeError = some e ∧ Truthful durable t.connection.durable writes e ∧
      (t.connection.durable = durable ∨ body.isOk = true ∧ failed = false ∧ t.connection.durable =
        durable ++ writes))

theorem leave_yields {adapter : Adapter ω ρ} (hadapter : adapter.Promises) {write : Bool}
    {opened : Opened} {s : State ω ρ} {readOnly : Bool} (hw : Within opened.tx s)
    (hexpired : ∀ (i : ℕ) (x : Transaction), s.transactions[i]? = some x → x.live = true → i = opened.tx)
    (hremembers : adapter.Remembers write opened.previous readOnly s.connection) (body : Except Raised ρ) :
    Yields (leave adapter write opened body) s
      (fun value t => body = .ok value ∧ s.failed opened.tx = false ∧ Ready t ∧
        adapter.Keeps readOnly t.connection ∧
        t.connection.durable = s.connection.durable ++ s.connection.pending.getD [])
      (Raises adapter readOnly body (s.failed opened.tx) s.connection.durable
        (s.connection.pending.getD [])) := by
  have hready {d : Connection ω ρ} (hpending : d.pending = none) : Ready ((s.on d).expire opened.tx) :=
    ⟨rfl, hw.closed, hw.broken, hpending, expired_expire hexpired⟩
  have habandons (initiating : Raised)
      (hbody : body = .error initiating ∨ body.isOk = true ∧ s.failed opened.tx = true ∧
        initiating = failedError) :
      Yields (adapter.finish write opened.previous (.error initiating)) s (fun _ _ => False) fun e t =>
        Raises adapter readOnly body (s.failed opened.tx) s.connection.durable (s.connection.pending.getD []) e
          (t.expire opened.tx) := by
    refine (adapter_finish_error_yields hadapter initiating hremembers).mono (fun _ _ h => h) ?_
    rintro e t (⟨rfl, d, rfl, hdurable, hpending, hkeeps⟩ | ⟨d, rfl, hdurable, htruthful, -⟩)
    · exact .inl ⟨hready hpending, hdurable, hkeeps, hbody⟩
    · exact .inr ⟨⟨rfl, .inr rfl⟩, rfl, rfl, htruthful, .inl hdurable⟩
  refine leave_of_finish ?_
  cases body with
  | error initiating =>
      rw [bodyResult_error]
      exact (habandons initiating (.inl rfl)).mono (fun _ _ h => h.elim) fun _ _ h => h
  | ok value =>
      rw [bodyResult_ok]
      cases hfailed : s.failed opened.tx with
      | true =>
          rw [if_pos rfl]
          rw [hfailed] at habandons
          exact (habandons failedError (.inr ⟨rfl, rfl, rfl⟩)).mono (fun _ _ h => h.elim) fun _ _ h => h
      | false =>
          rw [if_neg Bool.false_ne_true]
          obtain ⟨writes, hwrites⟩ := hw.pending hfailed
          refine (adapter_finish_ok_yields hadapter value hremembers hwrites).mono ?_ ?_
          · rintro _ t ⟨rfl, d, writes', rfl, hwrites', hdurable, hpending, hkeeps⟩
            refine ⟨rfl, rfl, hready hpending, hkeeps, ?_⟩
            rw [hwrites', Option.getD_some]
            exact hdurable
          · rintro e t ⟨d, rfl, hdurable, htruthful⟩
            exact .inr ⟨⟨rfl, .inr rfl⟩, rfl, rfl, htruthful, hdurable.imp_right fun h => ⟨rfl, rfl, h⟩⟩

-- A transaction as a whole: it returns where no call in it has raised and all of its writes are
-- durable, and what it raises tells how it ended.
structure Block.Sound (adapter : Adapter ω ρ) (b : Block ω ρ) : Prop where
  returned : ∀ value, b.result = .ok value → b.body = .ok value ∧ b.faultless = true ∧ Ready b.after ∧
    adapter.Keeps b.before.connection.readOnly b.after.connection ∧
    b.after.connection.durable = b.before.connection.durable ++ b.writes
  raised : ∀ e, b.result = .error e → Raises adapter b.before.connection.readOnly b.body (!b.faultless)
    b.before.connection.durable b.writes e b.after
  reads : b.write = false → b.faultless = true → b.writes = []

theorem Block.Sound.after {adapter : Adapter ω ρ} {b : Block ω ρ} (h : b.Sound adapter) :
    Ready b.after ∨ Spent b.after := by
  cases hresult : b.result with
  | ok value => exact .inl (h.returned value hresult).2.2.1
  | error e =>
      rcases h.raised e hresult with ⟨hready, -⟩ | ⟨hspent, -⟩
      · exact .inl hready
      · exact .inr hspent

theorem Ready.not_spent {s : State ω ρ} (h : Ready s) (hspent : Spent s) : False := by
  rcases hspent.unusable with hclosed | hbroken
  · rw [h.closed] at hclosed
    cases hclosed
  · rw [h.broken] at hbroken
    cases hbroken

theorem block_sound {adapter : Adapter ω ρ} (hadapter : adapter.Promises) {write : Bool} {s t u : State ω ρ}
    {opened : Opened}
    {events : List (Event ω ρ)} (hentered : Entered adapter write s opened t)
    (hinside : Inside opened.tx t events u) (body : Except Raised ρ) :
    Block.Sound adapter
      { write := write, before := s, faultless := events.all Event.returned, body := body,
        writes := u.connection.pending.getD [], result := (perform (leave adapter write opened body) u).1,
        after := (perform (leave adapter write opened body) u).2 } := by
  have hw := hinside.held.within hentered.within
  have hdurable : u.connection.durable = s.connection.durable := hinside.held.durable.trans hentered.durable
  have hfaultless : (!events.all Event.returned) = u.failed opened.tx := by
    cases hall : events.all Event.returned with
    | true => rw [hinside.kept hall, hentered.fresh, Bool.not_true]
    | false => rw [hinside.failed hall, Bool.not_false]
  have hexpired : ∀ (i : ℕ) (x : Transaction), u.transactions[i]? = some x → x.live = true → i = opened.tx := by
    intro i x hx hlive
    rcases hinside.held.transactions with hsame | hsame <;> rw [hsame] at hx
    · exact hentered.expired i x hx hlive
    · rw [State.fail] at hx
      dsimp only at hx
      rw [List.getElem?_modify] at hx
      obtain ⟨y, hy, rfl⟩ := Option.map_eq_some_iff.mp hx
      refine hentered.expired i y hy ?_
      split_ifs at hlive <;> exact hlive
  have hremembers : adapter.Remembers write opened.previous s.connection.readOnly u.connection := by
    have hbefore := hentered.remembers
    cases adapter with
    | sqlite =>
        rw [Adapter.Remembers] at hbefore ⊢
        rwa [hinside.held.readOnly]
    | melddb manager => exact trivial
  refine { returned := ?_, raised := ?_, reads := ?_ }
  · intro value hresult
    rcases (leave_yields hadapter hw hexpired hremembers body).perform with
      ⟨a, v, hx, hbody, hnot, hready, hkeeps, hcommitted⟩ | ⟨e, v, hx, -⟩
    · rw [hx] at hresult
      obtain rfl : a = value := Except.ok.inj hresult
      rw [hnot] at hfaultless
      dsimp only
      rw [hx, ← hdurable]
      exact ⟨hbody, Bool.not_eq_eq_eq_not.mp hfaultless, hready, hkeeps, hcommitted⟩
    · rw [hx] at hresult
      cases hresult
  · intro e hresult
    rcases (leave_yields hadapter hw hexpired hremembers body).perform with
      ⟨a, v, hx, -⟩ | ⟨raised, v, hx, hraises⟩
    · rw [hx] at hresult
      cases hresult
    · rw [hx] at hresult
      obtain rfl : raised = e := Except.error.inj hresult
      dsimp only
      rw [hx, hfaultless, ← hdurable]
      exact hraises
  · intro hwrite hall
    dsimp only at hwrite hall ⊢
    have hnot : u.failed opened.tx = false := by rw [← hfaultless, hall, Bool.not_true]
    obtain ⟨more, hmore, hread⟩ := hinside.held.pending hnot [] hentered.pending
    rw [hmore, hread (hentered.reads hwrite)]
    rfl

-- Outside of a transaction

theorem check_spent {s : State ω ρ} (h : Spent s) {returned : Unit → State ω ρ → Prop} :
    Yields check s returned fun _ t => s = t := by
  rw [check]
  refine Yields.after_get (Yields.after_demand (fun _ => rfl) fun hclosed =>
    Yields.of_demand (fun hbroken => ?_) fun _ => rfl)
  rcases h.unusable with hunusable | hunusable
  · rw [hclosed] at hunusable
    cases hunusable
  · rw [hbroken] at hunusable
    cases hunusable

-- What begins with the check, on a catalog that fails it
theorem checked_spent {α : Type} {s : State ω ρ} (h : Spent s) (f : Unit → Op ω ρ α)
    {returned : α → State ω ρ → Prop} :
    Yields (check >>= f) s returned fun _ t => s = t :=
  Yields.bind (@check_spent _ _ s h fun _ _ => False) fun _ _ h => h.elim

-- Every transaction that has been handed out has expired.
theorem requireTransaction_outside {s : State ω ρ} (hs : Ready s ∨ Spent s) (tx : ℕ)
    {returned : Unit → State ω ρ → Prop} :
    Yields (requireTransaction tx) s returned fun _ t => s = t := by
  rcases hs with hs | hs
  · have hpoison (e : Error) : Yields (do poison; raiseError e) s returned fun _ t => s = t := by
      refine Yields.after_modify (Yields.of_throw ?_)
      rw [hs.active]
    rw [requireTransaction]
    refine Yields.bind (check_yields hs.closed hs.broken) ?_
    rintro _ _ rfl
    refine Yields.after_get ?_
    cases hfound : s.transactions[tx]? with
    | none => exact hpoison _
    | some t =>
        dsimp only
        rw [if_pos (.inl (by rw [hs.expired tx t hfound]; exact Bool.false_ne_true))]
        exact hpoison _
  · exact checked_spent hs _

theorem sql_outside {s : State ω ρ} (hs : Ready s ∨ Spent s) (isWord : Char → Bool) (tx : ℕ)
    (statement : String) (bound : Bool)
    {returned : ρ → State ω ρ → Prop} : Yields (sql isWord tx statement bound) s returned fun _ t => s = t :=
  Yields.bind (@requireTransaction_outside _ _ s hs tx fun _ _ => False) fun _ _ h => h.elim

theorem requireIdle_outside {s : State ω ρ} (hs : Ready s ∨ Spent s) :
    Yields requireIdle s (fun _ t => s = t ∧ Ready s) fun _ t => s = t := by
  rcases hs with hs | hs
  · rw [requireIdle]
    refine Yields.bind (check_yields hs.closed hs.broken) ?_
    rintro _ _ rfl
    exact (requireInactive_idle hs.active _).mono (fun _ _ h => ⟨h, hs⟩) fun _ _ h => h
  · exact checked_spent hs _

-- Closing releases everything, whatever raises.

theorem closeResource_yields {call : Call ω ρ Unit} {s : State ω ρ}
    (hcall : Yields call s.connection (fun _ d => d.durable = s.connection.durable) fun _ d => d.durable =
      s.connection.durable)
    {raised : Raised → State ω ρ → Prop} :
    Yields (closeResource call) s (fun _ t => ∃ d, t = s.on d ∧ d.durable = s.connection.durable) raised := by
  rw [closeResource]
  refine Yields.after_attempt (onConnection_yields (hcall.mono ?_ ?_))
  · intro _ d hdurable
    exact Yields.of_pure ⟨d, rfl, hdurable⟩
  · intro _ d hdurable
    exact Yields.of_pure ⟨d, rfl, hdurable⟩

theorem closeLeases_yields (count : ℕ) (s : State ω ρ) {raised : Raised → State ω ρ → Prop} :
    Yields (closeLeases count) s (fun _ t => ∃ d, t = s.on d ∧ d.durable = s.connection.durable) raised := by
  induction count generalizing s with
  | zero => exact Yields.of_pure ⟨s.connection, rfl, rfl⟩
  | succ count ih =>
      have hlease : Yields Connection.closeLease s.connection (fun _ d => d.durable = s.connection.durable)
        fun _ d => d.durable = s.connection.durable := by
        rw [Connection.closeLease]
        refine Yields.bind (Connection.react_yields _) ?_
        rintro _ _ ⟨rfl, rfl⟩
        exact Yields.of_raiseAny (fun _ => rfl) fun _ _ => rfl
      rw [closeLeases]
      refine Yields.bind (closeResource_yields hlease) ?_
      rintro first _ ⟨d, rfl, hdurable⟩
      refine Yields.bind (ih (s.on d)) ?_
      rintro rest _ ⟨f, rfl, hsame⟩
      exact Yields.of_pure ⟨f, rfl, hsame.trans hdurable⟩

theorem close_outside {s : State ω ρ} (hs : Ready s ∨ Spent s) :
    Yields close s (fun _ t => Spent t ∧ t.connection.durable = s.connection.durable) fun _ t =>
      Spent t ∧ t.connection.durable = s.connection.durable := by
  have hactive : s.active = none := hs.elim Ready.active Spent.active
  rw [close]
  refine Yields.after_get (Yields.after_demand (fun hclosed => ?_) fun _ => ?_)
  · exact ⟨⟨hactive, .inl (Bool.not_eq_false _ ▸ hclosed)⟩, rfl⟩
  · refine Yields.bind (requireInactive_idle hactive _) ?_
    rintro _ _ rfl
    have hconnection : Yields Connection.close s.connection (fun _ d => d.durable = s.connection.durable)
      fun _ d => d.durable = s.connection.durable := by
      rw [Connection.close]
      refine Yields.after_modify (Yields.bind (Connection.react_yields _) ?_)
      rintro _ _ ⟨rfl, rfl⟩
      exact Yields.of_raiseAny (fun _ => rfl) fun _ _ => rfl
    refine Yields.bind (closeResource_yields hconnection) ?_
    rintro first _ ⟨d, rfl, hdurable⟩
    refine Yields.bind (closeLeases_yields s.leases (s.on d)) ?_
    rintro rest _ ⟨f, rfl, hsame⟩
    refine Yields.after_modify ?_
    have hspent : Spent { (s.on d).on f with closed := true } := ⟨hactive, .inl rfl⟩
    have hboth := And.intro hspent (hsame.trans hdurable)
    split
    · exact Yields.of_pure hboth
    · exact Yields.of_throw hboth
    · exact Yields.of_throw hboth

-- A whole run

def Event.committed : Event ω ρ → List ω
  | .block b => if b.result.isOk then b.writes else []
  | _ => []

-- What a catalog that is quarantined or closed answers.
def Event.Refused : Event ω ρ → Prop
  | .call returned _ => returned = false
  | .block _ => False
  | .closed _ _ => True

theorem Event.Refused.committed {event : Event ω ρ} (h : event.Refused) : event.committed = [] := by
  cases event with
  | block b => exact h.elim
  | _ => rfl

def Event.closes : Event ω ρ → Bool
  | .closed _ _ => true
  | _ => false

-- The transaction that quarantined the catalog and may have committed.
def Uncertain (events : List (Event ω ρ)) (writes : List ω) : Prop :=
  ∃ b, .block b ∈ events ∧ b.result.isOk = false ∧ b.after.broken = true ∧ b.faultless = true ∧
    b.body.isOk = true ∧
    b.writes = writes

structure Outside (adapter : Adapter ω ρ) (s : State ω ρ) (events : List (Event ω ρ))
    (t : State ω ρ) : Prop where
  state : Ready t ∨ Spent t
  spent : Spent s → Spent t ∧ t.connection.durable = s.connection.durable ∧ ∀ event ∈ events, event.Refused
  untouched : Spent s → (∀ event ∈ events, event.closes = false) → t = s
  states : ∀ event ∈ events, Ready event.after ∨ Spent event.after
  stays : ∀ event ∈ events, Spent event.after → Spent t
  order : events.Pairwise fun first later => Spent first.after → later.Refused
  sound : ∀ b, .block b ∈ events → b.Sound adapter
  durable : t.connection.durable = s.connection.durable ++ events.flatMap Event.committed ∨
    Spent t ∧ ∃ writes, Uncertain events writes ∧
      t.connection.durable = s.connection.durable ++ events.flatMap Event.committed ++ writes

theorem Uncertain.mono {events more : List (Event ω ρ)} {writes : List ω} (h : Uncertain events writes)
    (hsub : ∀ event ∈ events, event ∈ more) : Uncertain more writes := by
  obtain ⟨b, hb, hrest⟩ := h
  exact ⟨b, hsub _ hb, hrest⟩

theorem flatMap_refused {events : List (Event ω ρ)} (h : ∀ event ∈ events, event.Refused) :
    events.flatMap Event.committed = [] :=
  List.flatMap_eq_nil_iff.mpr fun event hevent => (h event hevent).committed

variable {adapter : Adapter ω ρ}

theorem Outside.refl {s : State ω ρ} (hs : Ready s ∨ Spent s) : Outside adapter s [] s :=
  { state := hs, spent := fun h => ⟨h, rfl, fun _ h => absurd h List.not_mem_nil⟩, untouched := fun _ _ => rfl,
    states := fun _ h => absurd h List.not_mem_nil, stays := fun _ h => absurd h List.not_mem_nil,
    order := .nil, sound := fun _ h => absurd h List.not_mem_nil, durable := .inl (List.append_nil _).symm }

theorem Outside.trans {s t u : State ω ρ} {events later : List (Event ω ρ)} (h : Outside adapter s events t)
    (h' : Outside adapter t later u) : Outside adapter s (events ++ later) u := by
  refine { state := h'.state, spent := fun hs => ?_, untouched := fun hs hcloses => ?_,
           states := fun event hevent => (List.mem_append.mp hevent).elim (h.states event) (h'.states event),
           stays := fun event hevent hspent => ?_, order := ?_, sound := ?_, durable := ?_ }
  · obtain ⟨hmid, hdurable, hrefused⟩ := h.spent hs
    obtain ⟨hlast, hsame, hlater⟩ := h'.spent hmid
    refine ⟨hlast, hsame.trans hdurable, fun event hevent => ?_⟩
    exact (List.mem_append.mp hevent).elim (hrefused event) (hlater event)
  · have hlast := h'.untouched (h.spent hs).1 fun event hevent => hcloses event (List.mem_append_right _ hevent)
    exact hlast.trans (h.untouched hs fun event hevent => hcloses event (List.mem_append_left _ hevent))
  · rcases List.mem_append.mp hevent with hevent | hevent
    · exact (h'.spent (h.stays event hevent hspent)).1
    · exact h'.stays event hevent hspent
  · refine List.pairwise_append.mpr ⟨h.order, h'.order, fun first hfirst last hlast hspent => ?_⟩
    exact (h'.spent (h.stays first hfirst hspent)).2.2 last hlast
  · intro b hb
    exact (List.mem_append.mp hb).elim (h.sound b) (h'.sound b)
  · rw [List.flatMap_append, ← List.append_assoc]
    rcases h.durable with hbefore | ⟨hmid, writes, huncertain, hbefore⟩
    · rcases h'.durable with hafter | ⟨hlast, writes, huncertain, hafter⟩
      · exact .inl (by rw [hafter, hbefore])
      · refine .inr ⟨hlast, writes, huncertain.mono fun event hevent => List.mem_append_right _ hevent, ?_⟩
        rw [hafter, hbefore]
    · obtain ⟨hlast, hsame, hrefused⟩ := h'.spent hmid
      refine .inr ⟨hlast, writes, huncertain.mono fun event hevent => List.mem_append_left _ hevent, ?_⟩
      rw [flatMap_refused hrefused, List.append_nil, hsame, hbefore]

-- A call outside of a transaction writes nothing.
theorem outside_single {s t : State ω ρ} {event : Event ω ρ} (hafter : event.after = t)
    (hcommitted : ∀ b, event ≠ .block b) (hstate : Ready t ∨ Spent t)
    (hspent : Spent s → Spent t ∧ event.Refused ∧ (event.closes = false → t = s))
    (hdurable : t.connection.durable = s.connection.durable) : Outside adapter s [event] t := by
  have hnone : [event].flatMap Event.committed = [] := by
    cases event with
    | block b => exact absurd rfl (hcommitted b)
    | _ => rfl
  refine { state := hstate, spent := fun hs => ⟨(hspent hs).1, hdurable, ?_⟩,
           untouched := fun hs hcloses => (hspent hs).2.2 (hcloses event (List.mem_singleton_self event)),
           states := ?_, stays := ?_, order := List.pairwise_singleton _ _, sound := ?_,
           durable := .inl (by rw [hnone, List.append_nil, hdurable]) }
  · intro other hother
    rw [List.mem_singleton.mp hother]
    exact (hspent hs).2.1
  · intro other hother
    rw [List.mem_singleton.mp hother, hafter]
    exact hstate
  · intro other hother hother'
    rw [List.mem_singleton.mp hother, hafter] at hother'
    exact hother'
  · intro b hb
    exact absurd (List.mem_singleton.mp hb).symm (hcommitted b)

-- A call that is refused and changes nothing
theorem outside_refused {s : State ω ρ} (hs : Ready s ∨ Spent s) : Outside adapter s [.call false s] s :=
  outside_single rfl (call_flat _ _) hs (fun h => ⟨h, rfl, fun _ => rfl⟩) rfl

theorem outside_block {b : Block ω ρ} (hready : Ready b.before) (h : b.Sound adapter) :
    Outside adapter b.before [.block b] b.after := by
  refine { state := h.after, spent := fun hspent => (hready.not_spent hspent).elim,
           untouched := fun hspent => (hready.not_spent hspent).elim, states := ?_, stays := ?_,
           order := List.pairwise_singleton _ _, sound := ?_, durable := ?_ }
  · intro other hother
    rw [List.mem_singleton.mp hother]
    exact h.after
  · intro other hother hspent
    rw [List.mem_singleton.mp hother] at hspent
    exact hspent
  · intro other hother
    cases List.mem_singleton.mp hother
    exact h
  · have hcommitted : [Event.block b].flatMap Event.committed = if b.result.isOk then b.writes else [] :=
      List.append_nil _
    rw [hcommitted]
    cases hresult : b.result with
    | ok value => exact .inl (h.returned value hresult).2.2.2.2
    | error e =>
        rw [show (Except.error e : Except Raised ρ).isOk = false from rfl, if_neg Bool.false_ne_true,
          List.append_nil]
        rcases h.raised e hresult with
          ⟨-, hdurable, -⟩ | ⟨hspent, hbroken, -, -, hdurable | ⟨hbody, hnot, hdurable⟩⟩
        · exact .inl hdurable
        · exact .inl hdurable
        · refine .inr ⟨hspent, b.writes,
            ⟨b, List.mem_singleton_self _, by rw [hresult]; rfl, hbroken, ?_, hbody, rfl⟩, hdurable⟩
          exact Bool.not_eq_eq_eq_not.mp hnot

theorem run_outside (hadapter : adapter.Promises) (isWord : Char → Bool) {app : Application ρ} {s : State ω ρ}
    (hs : Ready s ∨ Spent s) (hplain : Spent s ∨ app.Plain) :
    Outside adapter s (run isWord adapter app s).events (run isWord adapter app s).state := by
  induction app generalizing s with
  | done value => exact .refl hs
  | raise e => exact .refl hs
  | sql tx statement bound next ih =>
      rcases (@sql_outside _ _ s hs isWord tx statement bound fun _ _ => False).perform with
        ⟨_, _, _, hnever⟩ | ⟨e, t, hx, rfl⟩
      · exact hnever.elim
      · simp only [run, hx]
        exact (outside_refused hs).trans (ih _ hs (hplain.imp_right fun h => h.2 _))
  | operation tx inner next ihinner ihnext =>
      rcases (@requireTransaction_outside _ _ s hs tx fun _ _ => False).perform with
        ⟨_, _, _, hnever⟩ | ⟨e, t, hx, rfl⟩
      · exact hnever.elim
      · simp only [run, hx]
        exact (outside_refused hs).trans (ihnext _ hs (hplain.imp_right fun h => h.2 _))
  | transaction write body next ihbody ihnext =>
      rcases hs with hready | hspent
      · have hplain := hplain.resolve_left hready.not_spent
        rcases (enter_yields hadapter write hready).perform with
          ⟨opened, t, hx, hentered⟩ | ⟨e, t, hx, hdurable, hstate⟩
        · have hsound :=
            block_sound hadapter hentered (run_within isWord adapter (hplain.1 opened.tx) hentered.within)
            (run isWord adapter (body opened.tx) t).result
          have hblock := outside_block hready hsound
          simp only [run, hx]
          exact hblock.trans (ihnext _ hblock.state (.inr (hplain.2 _)))
        · have hafter : Ready t ∨ Spent t := hstate.imp And.left And.left
          have hcall : Outside adapter s [.call false t] t :=
            outside_single rfl (call_flat _ _) hafter (fun h => (hready.not_spent h).elim) hdurable
          simp only [run, hx]
          exact hcall.trans (ihnext _ hafter (.inr (hplain.2 _)))
      · have henter : Yields (enter adapter write) s (fun _ _ => False) fun _ t => s = t :=
          checked_spent hspent _
        rcases henter.perform with ⟨_, _, _, hnever⟩ | ⟨e, t, hx, rfl⟩
        · exact hnever.elim
        · simp only [run, hx]
          exact (outside_refused (.inr hspent)).trans (ihnext _ (.inr hspent) (.inl hspent))
  | payload next ih =>
      rcases (requireIdle_outside hs).perform with ⟨_, t, hx, rfl, hready⟩ | ⟨e, t, hx, rfl⟩
      · have hcall : Outside adapter s [.call true s] s :=
          outside_single rfl (call_flat _ _) hs (fun h => (hready.not_spent h).elim) rfl
        simp only [run, hx]
        exact hcall.trans (ih _ hs (hplain.imp_right fun h => h _))
      · simp only [run, hx]
        exact (outside_refused hs).trans (ih _ hs (hplain.imp_right fun h => h _))
  | close next ih =>
      have hclose : Spent (perform close s).2 ∧ (perform close s).2.connection.durable =
        s.connection.durable := by
        rcases (close_outside hs).perform with ⟨_, t, hx, h⟩ | ⟨e, t, hx, h⟩ <;> rw [hx] <;> exact h
      have hcall : Outside adapter s [.closed (perform close s).1.isOk (perform close s).2]
        (perform close s).2 :=
        outside_single rfl (closed_flat _ _) (.inr hclose.1)
          (fun _ => ⟨hclose.1, trivial, fun h => absurd h.symm Bool.false_ne_true⟩) hclose.2
      exact hcall.trans (ih _ (.inr hclose.1) (.inl hclose.1))

-- A catalog that was just opened, and an application that clears a table and closes it; a
-- manager whose calls do not fail.

def fresh : State ℕ Unit :=
  { connection :=
      { durable := [], pending := none, readOnly := false, clock := 0,
        reactions := fun _ =>
          { effect := .applied, raised := none, writes := [7], rows := (),
            control := { durable := [7], pending := none, readOnly := false } } },
    transactions := [], active := none, closed := false, broken := false, outcomeError := none, leases := 1 }

theorem fresh_ready : Ready fresh := ⟨rfl, rfl, rfl, rfl, fun _ _ h => (by cases h)⟩

def clearing : Application Unit :=
  .transaction true (fun tx => .sql tx "DELETE FROM notes" true fun _ => .done ()) fun _ =>
    .close fun _ => .done ()

theorem clearing_plain : clearing.Plain := by
  have hstatement : Gate.overlapping (Gate.lstrip "DELETE FROM notes".toList) = false := by
    rw [Gate.overlapping, if_neg (by decide), if_neg (by decide)]
  exact ⟨fun _ => ⟨hstatement, fun _ => trivial⟩, fun _ _ => trivial⟩

def plainManager : Manager ℕ Unit where
  enter write := modify fun c => { c with pending := some [], readOnly := !write }
  exit failed := modify fun c =>
    { c with durable := c.durable ++ (if failed then [] else c.pending.getD []), pending := none }

theorem plainManager_promises : plainManager.Promises where
  entered write c _ := ⟨rfl, rfl, fun h => by rw [h]; rfl⟩
  committed c writes h := ⟨congrArg (fun pending => c.durable ++ pending.getD []) h, rfl⟩
  abandoned c := ⟨List.append_nil _, rfl⟩
  reports failed c := trivial

-- Over whatever an application does with a catalog, and however its calls end: what is durable is
-- what was, and the writes of the transactions that returned, each as a whole and in order; only
-- the one whose uncertain end has quarantined the catalog may add its own. None returns when a
-- call in it has raised, caught or not, and then nothing of it is durable.
theorem applications_commit_whole_transactions (hadapter : adapter.Promises) (isWord : Char → Bool)
    (app : Application ρ) (hplain : app.Plain) {s : State ω ρ} (hs : Ready s) :
    let e := run isWord adapter app s
    (e.state.connection.durable = s.connection.durable ++ e.events.flatMap Event.committed ∨
      Spent e.state ∧ ∃ writes, Uncertain e.events writes ∧
        e.state.connection.durable = s.connection.durable ++ e.events.flatMap Event.committed ++ writes) ∧
      (∀ b, .block b ∈ e.events →
        (b.result.isOk = true → b.faultless = true ∧ b.body = b.result ∧
          b.after.connection.durable = b.before.connection.durable ++ b.writes) ∧
        (b.faultless = false ∨ b.body.isOk = false →
          b.result.isOk = false ∧ b.after.connection.durable = b.before.connection.durable) ∧
        (b.faultless = true → b.body.isOk = true → b.result.isOk = false → b.after.broken = true) ∧
        (b.write = false → b.faultless = true → b.writes = [])) ∧
      ∀ tx statement bound, ∃ raised, perform (sql isWord tx statement bound) e.state =
        (.error raised, e.state) := by
  dsimp only
  have hrun := run_outside hadapter isWord (.inl hs) (.inr hplain)
  refine ⟨hrun.durable, fun b hb => ?_, fun tx statement bound => ?_⟩
  · have hsound := hrun.sound b hb
    refine ⟨fun hok => ?_, fun hfault => ?_, fun hfaultless hbody hresult => ?_, hsound.reads⟩
    · obtain ⟨value, hvalue⟩ := Library.Checked.exists_of_isOk hok
      obtain ⟨hbody, hfaultless, -, -, hdurable⟩ := hsound.returned value hvalue
      exact ⟨hfaultless, hbody.trans hvalue.symm, hdurable⟩
    · cases hresult : b.result with
      | ok value =>
          obtain ⟨hbody, hfaultless, -⟩ := hsound.returned value hresult
          rw [hbody, hfaultless] at hfault
          rcases hfault with h | h <;> cases h
      | error e =>
          refine ⟨rfl, ?_⟩
          rcases hsound.raised e hresult with ⟨-, hdurable, -⟩ | ⟨-, -, -, -, hdurable | ⟨hbody, hnot, -⟩⟩
          · exact hdurable
          · exact hdurable
          · rw [hbody, Bool.not_eq_eq_eq_not.mp hnot] at hfault
            rcases hfault with h | h <;> cases h
    · cases hvalue : b.result with
      | ok value =>
          rw [hvalue] at hresult
          cases hresult
      | error e =>
          rcases hsound.raised e hvalue with ⟨-, -, -, hbefore | ⟨-, hfailed, -⟩⟩ | ⟨-, hbroken, -⟩
          · rw [hbefore] at hbody
            cases hbody
          · rw [hfaultless] at hfailed
            cases hfailed
          · exact hbroken
  · rcases (@sql_outside _ _ _ hrun.state isWord tx statement bound fun _ _ => False).perform with
      ⟨_, _, _, hnever⟩ | ⟨e, t, hx, hsame⟩
    · exact hnever.elim
    · exact ⟨e, by rw [hx, ← hsame]⟩

theorem clearing_commits_whole_transactions :
    let e := run Char.isAlpha (.melddb plainManager) clearing fresh
    e.state.connection.durable = fresh.connection.durable ++ e.events.flatMap Event.committed ∨
      Spent e.state ∧ ∃ writes, Uncertain e.events writes ∧
        e.state.connection.durable = fresh.connection.durable ++ e.events.flatMap Event.committed ++ writes :=
  (@applications_commit_whole_transactions _ _ (.melddb plainManager) plainManager_promises
    Char.isAlpha clearing
    clearing_plain fresh fresh_ready).1

-- What a transaction raises tells the truth. It is the exception of its body, or that a call in it
-- has failed, and then it is rolled back and the catalog as before; or the catalog is quarantined
-- with an outcome, which claims no commit and no rollback that has not happened. From then on
-- every call but a close is refused and touches nothing.
theorem outcomes_are_truthful (hadapter : adapter.Promises) (isWord : Char → Bool) (app : Application ρ)
    (hplain : app.Plain) {s : State ω ρ} (hs : Ready s) :
    let e := run isWord adapter app s
    (∀ b raised, .block b ∈ e.events → b.result = .error raised →
      (Ready b.after ∧ b.after.connection.durable = b.before.connection.durable ∧
          adapter.Keeps b.before.connection.readOnly b.after.connection ∧
          (b.body = .error raised ∨ b.body.isOk = true ∧ b.faultless = false ∧ raised = failedError)) ∨
        (b.after.broken = true ∧ b.after.outcomeError = some raised ∧ raised.reports ≠ none ∧
          (Says raised .rolledBack → b.after.connection.durable = b.before.connection.durable) ∧
          (Says raised .committed → b.after.connection.durable = b.before.connection.durable ++ b.writes))) ∧
      (∀ event ∈ e.events, Ready event.after ∨ Spent event.after) ∧
      (e.events.Pairwise fun first later => Spent first.after → later.Refused) ∧
      (Spent e.state → ∀ rest, let more := run isWord adapter rest e.state
        (∀ event ∈ more.events, event.Refused) ∧ more.state.connection.durable = e.state.connection.durable ∧
          ((∀ event ∈ more.events, event.closes = false) → more.state = e.state)) := by
  dsimp only
  have hrun := run_outside hadapter isWord (.inl hs) (.inr hplain)
  refine ⟨fun b raised hb hresult => ?_, hrun.states, hrun.order, fun hspent rest => ?_⟩
  · rcases (hrun.sound b hb).raised raised hresult with
      ⟨hready, hdurable, hkeeps, hbody⟩ | ⟨-, hbroken, herror, htruthful, -⟩
    · refine .inl ⟨hready, hdurable, hkeeps, hbody.imp_right fun h => ⟨h.1, ?_, h.2.2⟩⟩
      exact Bool.not_eq_eq_eq_not.mp h.2.1
    · exact .inr ⟨hbroken, herror, htruthful.reported, htruthful.rolledBack, htruthful.committed⟩
  · have hrest := @run_outside _ _ _ hadapter isWord rest _ hrun.state (.inl hspent)
    obtain ⟨-, hdurable, hrefused⟩ := hrest.spent hspent
    exact ⟨hrefused, hdurable, hrest.untouched hspent⟩

theorem clearing_is_truthful :
    (∀ event ∈ (run Char.isAlpha .sqlite clearing fresh).events, Ready event.after ∨ Spent event.after) ∧
      (run Char.isAlpha .sqlite clearing fresh).events.Pairwise fun first later =>
        Spent first.after → later.Refused :=
  ⟨(@outcomes_are_truthful _ _ .sqlite trivial Char.isAlpha clearing clearing_plain fresh fresh_ready).2.1,
    (@outcomes_are_truthful _ _ .sqlite trivial Char.isAlpha clearing clearing_plain fresh fresh_ready).2.2.1⟩

end Scope

end MeldStore
