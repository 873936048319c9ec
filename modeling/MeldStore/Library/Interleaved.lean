import Mathlib.Logic.Function.Basic
import MeldStore.Library.Runs

namespace Library.Interleaved

open Runs

-- A call sends requests to a shared state, each depending on the replies before it.
inductive Program (ρ : Type) (reply : ρ → Type) (α : Type)
  | done (result : α)
  | call (request : ρ) (next : reply request → Program ρ reply α)

def Program.bind {ρ : Type} {reply : ρ → Type} {α β : Type} :
    Program ρ reply α → (α → Program ρ reply β) → Program ρ reply β
  | .done result, rest => rest result
  | .call request next, rest => .call request fun answer => (next answer).bind rest

-- Where a call stands. `lost` is a call that stopped, or gave up, while its request may
-- still be on its way.
inductive Thread (ρ : Type) (reply : ρ → Type) (α : Type)
  | running (program : Program ρ reply α)
  | lost (request : ρ)
  | stopped
  | returned (result : α)

-- `serves` is one atomic effect of a request, with its reply; `late` tells which
-- requests can take effect after their call; `released` is what the end of a call that
-- stopped gives back; `outside` is what else happens to the state.
structure Server (ι σ ρ : Type) (reply : ρ → Type) where
  serves : ι → (request : ρ) → σ → σ → reply request → Prop
  late : ρ → Prop
  released : ι → σ → σ
  outside : σ → σ → Prop

structure Configuration (ι σ ρ : Type) (reply : ρ → Type) (α : Type) where
  shared : σ
  threads : ι → Thread ρ reply α

variable {ι σ ρ α : Type} {reply : ρ → Type}

-- What a call must expect of the others, when each call keeps its guarantee.
inductive Relies (server : Server ι σ ρ reply) (guarantee : ι → σ → σ → Prop) (i : ι) (s t : σ) : Prop
  | call (j : ι) (hne : j ≠ i) (h : guarantee j s t)
  | outside (h : server.outside s t)

abbrev Interferes (server : Server ι σ ρ reply) (guarantee : ι → σ → σ → Prop) (i : ι) : σ → σ → Prop :=
  Run (Relies server guarantee i)

-- The effects of a request keep the guarantee, whenever they come.
def Harmless (server : Server ι σ ρ reply) (guarantee : ι → σ → σ → Prop) (i : ι) (request : ρ)
    (s : σ) : Prop :=
  ∀ t, Interferes server guarantee i s t → ∀ u answer, server.serves i request t u answer → guarantee i t u

-- The rest of a call keeps the guarantee and ends in its postcondition.
def Safe (server : Server ι σ ρ reply) (guarantee : ι → σ → σ → Prop) (post : ι → α → σ → Prop) (i : ι) :
    Program ρ reply α → σ → Prop
  | .done result, s => ∀ t, Interferes server guarantee i s t → post i result t
  | .call request next, s => ∀ t, Interferes server guarantee i s t →
      (server.late request → Harmless server guarantee i request (server.released i t)) ∧
      ∀ u answer, server.serves i request t u answer →
        guarantee i t u ∧ Safe server guarantee post i (next answer) u

variable {server : Server ι σ ρ reply} {guarantee : ι → σ → σ → Prop} {post : ι → α → σ → Prop}

theorem Harmless.interferes {i : ι} {request : ρ} {s t : σ} (h : Harmless server guarantee i request s)
    (hinterferes : Interferes server guarantee i s t) : Harmless server guarantee i request t :=
  fun u hu => h u (hinterferes.trans hu)

theorem Safe.interferes {i : ι} {program : Program ρ reply α} {s t : σ}
    (h : Safe server guarantee post i program s) (hinterferes : Interferes server guarantee i s t) :
    Safe server guarantee post i program t := by
  cases program with
  | done result => exact fun u hu => h u (hinterferes.trans hu)
  | call request next => exact fun u hu => h u (hinterferes.trans hu)

theorem Safe.bind {β : Type} {mid : ι → β → σ → Prop} {i : ι} {program : Program ρ reply β}
    {rest : β → Program ρ reply α} {s : σ} (h : Safe server guarantee mid i program s)
    (hrest : ∀ result t, mid i result t → Safe server guarantee post i (rest result) t) :
    Safe server guarantee post i (program.bind rest) s := by
  induction program generalizing s with
  | done result => exact hrest result s (h s .refl)
  | call request next ih =>
      intro t ht
      obtain ⟨hlate, hserves⟩ := h t ht
      refine ⟨hlate, fun u answer hserved => ?_⟩
      obtain ⟨hguarantee, hnext⟩ := hserves u answer hserved
      exact ⟨hguarantee, ih answer hnext⟩

-- What every thread of a reachable system still owes.
def Owes (server : Server ι σ ρ reply) (guarantee : ι → σ → σ → Prop) (post : ι → α → σ → Prop)
    (i : ι) (s : σ) : Thread ρ reply α → Prop
  | .running program => Safe server guarantee post i program s
  | .lost request => Harmless server guarantee i request s
  | .stopped => True
  | .returned result => ∀ t, Interferes server guarantee i s t → post i result t

def Sound (server : Server ι σ ρ reply) (guarantee : ι → σ → σ → Prop) (post : ι → α → σ → Prop)
    (system : Configuration ι σ ρ reply α) : Prop :=
  ∀ i, Owes server guarantee post i system.shared (system.threads i)

-- Where every call is still to begin.
theorem Sound.of_safe {shared : σ} {programs : ι → Program ρ reply α}
    (h : ∀ i, Safe server guarantee post i (programs i) shared) :
    Sound server guarantee post { shared := shared, threads := fun i => .running (programs i) } := h

theorem Owes.interferes {i : ι} {s t : σ} {thread : Thread ρ reply α}
    (h : Owes server guarantee post i s thread) (hinterferes : Interferes server guarantee i s t) :
    Owes server guarantee post i t thread := by
  cases thread with
  | running program => exact Safe.interferes h hinterferes
  | lost request => exact Harmless.interferes h hinterferes
  | stopped => trivial
  | returned result => exact fun u hu => h u (hinterferes.trans hu)

variable [DecidableEq ι]

def Configuration.moved (system : Configuration ι σ ρ reply α) (shared : σ) (i : ι)
    (thread : Thread ρ reply α) : Configuration ι σ ρ reply α :=
  { shared := shared, threads := Function.update system.threads i thread }

theorem Configuration.threads_moved (system : Configuration ι σ ρ reply α) (shared : σ) (i : ι)
    (thread : Thread ρ reply α) :
    (system.moved shared i thread).threads i = thread := Function.update_self _ _ _

theorem Configuration.threads_moved_of_ne {i j : ι} (hne : j ≠ i) (system : Configuration ι σ ρ reply α)
    (shared : σ)
    (thread : Thread ρ reply α) : (system.moved shared i thread).threads j = system.threads j :=
  Function.update_of_ne hne _ _

theorem Configuration.moved_moved (system : Configuration ι σ ρ reply α) (s t : σ) (i : ι)
    (first second : Thread ρ reply α) :
    (system.moved s i first).moved t i second = system.moved t i second := by
  simp only [Configuration.moved, Function.update_idem]

-- One step, of a call or from outside.
inductive Step (server : Server ι σ ρ reply) :
    Option ι → Configuration ι σ ρ reply α → Configuration ι σ ρ reply α → Prop
  | serve {system : Configuration ι σ ρ reply α} {i : ι} {request : ρ}
      {next : reply request → Program ρ reply α}
      {shared : σ} {answer : reply request} (hrunning : system.threads i = .running (.call request next))
      (h : server.serves i request system.shared shared answer) :
      Step server (some i) system (system.moved shared i (.running (next answer)))
  | finish {system : Configuration ι σ ρ reply α} {i : ι} {result : α}
      (hrunning : system.threads i = .running (.done result)) :
      Step server (some i) system (system.moved system.shared i (.returned result))
  | stop {system : Configuration ι σ ρ reply α} {i : ι} {program : Program ρ reply α}
      (hrunning : system.threads i = .running program) :
      Step server (some i) system (system.moved (server.released i system.shared) i .stopped)
  | lose {system : Configuration ι σ ρ reply α} {i : ι} {request : ρ} {next : reply request → Program ρ reply α}
      (hrunning : system.threads i = .running (.call request next)) (hlate : server.late request) :
      Step server (some i) system (system.moved (server.released i system.shared) i (.lost request))
  | arrive {system : Configuration ι σ ρ reply α} {i : ι} {request : ρ} {shared : σ} {answer : reply request}
      (hlost : system.threads i = .lost request) (h : server.serves i request system.shared shared answer) :
      Step server (some i) system (system.moved shared i .stopped)
  | outside {system : Configuration ι σ ρ reply α} {shared : σ} (h : server.outside system.shared shared) :
      Step server none system { system with shared := shared }

abbrev Steps (server : Server ι σ ρ reply) : Configuration ι σ ρ reply α → Configuration ι σ ρ reply α → Prop :=
  Run fun system after => ∃ actor, Step server actor system after

theorem Sound.moved {system : Configuration ι σ ρ reply α} {i : ι} {shared : σ} {thread : Thread ρ reply α}
    (h : Sound server guarantee post system) (hguarantee : guarantee i system.shared shared)
    (howes : Owes server guarantee post i shared thread) :
    Sound server guarantee post (system.moved shared i thread) := by
  intro j
  by_cases he : j = i
  · subst he
    rw [Configuration.threads_moved]
    exact howes
  · rw [Configuration.threads_moved_of_ne he]
    exact (h j).interferes (.single (.call i (Ne.symm he) hguarantee))

-- The steps of one call from its request to its end, among those of the outside.
inductive Performs (server : Server ι σ ρ reply) (i : ι) : Program ρ reply α → σ → α → σ → Prop
  | done {result : α} {s : σ} : Performs server i (.done result) s result s
  | call {request : ρ} {next : reply request → Program ρ reply α} {s t u : σ} {result : α}
      (answer : reply request)
      (h : server.serves i request s t answer) (hrest : Performs server i (next answer) t result u) :
      Performs server i (.call request next) s result u
  | outside {program : Program ρ reply α} {s t u : σ} {result : α} (h : server.outside s t)
      (hrest : Performs server i program t result u) : Performs server i program s result u

theorem Performs.steps {i : ι} {program : Program ρ reply α} {result : α} {s u : σ}
    (h : Performs server i program s result u) {system : Configuration ι σ ρ reply α}
    (hshared : system.shared = s) (hrunning : system.threads i = .running program) :
    Steps server system (system.moved u i (.returned result)) := by
  induction h generalizing system with
  | done =>
      subst hshared
      exact .single ⟨_, .finish hrunning⟩
  | @call request next s t u result answer hserves hrest ih =>
      subst hshared
      have hnext : Steps server (system.moved t i (.running (next answer)))
          ((system.moved t i (.running (next answer))).moved u i (.returned result)) :=
        ih rfl (Configuration.threads_moved _ _ _ _)
      rw [Configuration.moved_moved] at hnext
      exact .head ⟨_, .serve hrunning hserves⟩ hnext
  | @outside program s t u result houtside hrest ih =>
      subst hshared
      have hnext : Steps server { system with shared := t } (system.moved u i (.returned result)) :=
        ih rfl hrunning
      exact .head ⟨_, .outside houtside⟩ hnext

section

variable (hidle : ∀ i s, guarantee i s s) (hreleased : ∀ i s, guarantee i s (server.released i s))

include hidle hreleased

-- A step of a call keeps its guarantee, and the system stays sound.
theorem Step.sound {actor : Option ι} {system after : Configuration ι σ ρ reply α}
    (h : Step server actor system after) (hsound : Sound server guarantee post system) :
    Sound server guarantee post after ∧ (∀ i, actor = some i → guarantee i system.shared after.shared) ∧
      (actor = none → server.outside system.shared after.shared) := by
  cases h with
  | @serve system i request next shared answer hrunning h =>
      have hsafe := hsound i
      rw [hrunning] at hsafe
      obtain ⟨hguarantee, hnext⟩ := (hsafe _ .refl).2 _ _ h
      refine ⟨hsound.moved hguarantee hnext, ?_, nofun⟩
      rintro j ⟨⟩
      exact hguarantee
  | @finish system i result hrunning =>
      have hsafe := hsound i
      rw [hrunning] at hsafe
      refine ⟨hsound.moved (hidle i _) hsafe, ?_, nofun⟩
      rintro j ⟨⟩
      exact hidle i _
  | @stop system i program hrunning =>
      refine ⟨hsound.moved (hreleased i _) trivial, ?_, nofun⟩
      rintro j ⟨⟩
      exact hreleased i _
  | @lose system i request next hrunning hlate =>
      have hsafe := hsound i
      rw [hrunning] at hsafe
      refine ⟨hsound.moved (hreleased i _) ((hsafe _ .refl).1 hlate), ?_, nofun⟩
      rintro j ⟨⟩
      exact hreleased i _
  | @arrive system i request shared answer hlost h =>
      have hharmless := hsound i
      rw [hlost] at hharmless
      have hguarantee := hharmless _ .refl _ _ h
      refine ⟨hsound.moved hguarantee trivial, ?_, nofun⟩
      rintro j ⟨⟩
      exact hguarantee
  | @outside system shared h =>
      exact ⟨fun i => (hsound i).interferes (.single (.outside h)), nofun, fun _ => h⟩

theorem Steps.sound {system after : Configuration ι σ ρ reply α} (h : Steps server system after)
    (hsound : Sound server guarantee post system) : Sound server guarantee post after :=
  Runs.invariant (Sound server guarantee post) (fun _ _ hs ⟨_, hstep⟩ => (hstep.sound hidle hreleased hs).1)
    h hsound

-- What every guarantee and the outside keep of the shared state, a run keeps.
theorem Steps.keeps (inv : σ → Prop) (hcalls : ∀ i s t, inv s → guarantee i s t → inv t)
    (houtside : ∀ s t, inv s → server.outside s t → inv t) {system after : Configuration ι σ ρ reply α}
    (h : Steps server system after) (hsound : Sound server guarantee post system) (hinv : inv system.shared) :
    inv after.shared := by
  refine (Runs.invariant (fun system : Configuration ι σ ρ reply α => Sound server guarantee post system ∧
    inv system.shared)
    ?_ h ⟨hsound, hinv⟩).2
  rintro s t ⟨hs, hkept⟩ ⟨actor, hstep⟩
  obtain ⟨ht, hguarantee, hout⟩ := hstep.sound hidle hreleased hs
  refine ⟨ht, ?_⟩
  cases actor with
  | none => exact houtside _ _ hkept (hout rfl)
  | some i => exact hcalls i _ _ hkept (hguarantee i rfl)

end

end Library.Interleaved
