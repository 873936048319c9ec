import MeldStore.Backup
import MeldStore.Deletion
import MeldStore.Library.Hashing
import MeldStore.Library.Interleaved

namespace MeldStore

open Library Library.Hashing Library.Interleaved

-- Object publication, among other uploads of the same key.

namespace Upload

-- An object, with the upload that wrote its bytes; `none` for one from before.
structure Object (ι : Type) where
  content : Bytes
  writer : Option ι
deriving DecidableEq

abbrev Objects (ι : Type) := String → Option (Object ι)

inductive Request
  | put (key : String) (content : Bytes)
  | create (key : String) (content : Bytes)
  | rename (source target : String)
  | copy (source target : String)
  | delete (key : String)
deriving DecidableEq

variable {ι : Type}

-- The operations of obstore, put with mode="create", rename and copy with overwrite=False.
def perform (i : ι) : Request → Objects ι → Objects ι × Bool
  | .put key content, objects => (Function.update objects key (some ⟨content, some i⟩), true)
  | .create key content, objects =>
      if (objects key).isSome then (objects, false)
      else (Function.update objects key (some ⟨content, some i⟩), true)
  | .rename source target, objects =>
      match objects source with
      | none => (objects, false)
      | some object =>
          if (objects target).isSome then (objects, false)
          else (Function.update (Function.update objects target (some object)) source none, true)
  | .copy source target, objects =>
      match objects source with
      | none => (objects, false)
      | some object =>
          if (objects target).isSome then (objects, false)
          else (Function.update objects target (some object), true)
  | .delete key, objects => (Function.update objects key none, true)

-- Any request can fail, and the reply of any can be lost, before or after its call has
-- given up. Others delete objects only.
def server (ι : Type) (removable : String → Prop) : Server ι (Objects ι) Request fun _ => Bool :=
  { serves := fun i request s t ok => t = s ∧ ok = false ∨
      t = (perform i request s).1 ∧ (ok = true → (perform i request s).2 = true),
    late := fun _ => True,
    released := fun _ s => s,
    outside := fun s t => ∃ key, removable key ∧ t = Function.update s key none }

abbrev Call := Program Request (fun _ => Bool) (Except Error Unit)

def attempt (message : String) (request : Request) (next : Call) : Call :=
  .call request fun ok => if ok then next else .done (.error (.StorageError message))

end Upload

open Upload in
def LocalStorage.upload (stage key : String) (content : Bytes) : Call :=
  if Backup.keyPattern (.text key) then
    attempt "Local upload failed; staging/orphan objects may remain" (.put stage content) <|
      attempt "Local upload failed; staging/orphan objects may remain" (.rename stage key) <|
        .done (.ok ())
  else .done (.error (.ValidationError "Invalid MeldStore object key"))

open Upload in
def S3Storage.upload (stage key : String) (content : Bytes) : Call :=
  if Backup.keyPattern (.text key) then
    if content.length = 0 then
      attempt "S3 upload failed; staging/orphan objects may remain" (.create key []) <| .done (.ok ())
    else
      attempt "S3 upload failed; staging/orphan objects may remain" (.put stage content) <|
        attempt "S3 upload failed; staging/orphan objects may remain" (.copy stage key) <|
          attempt "S3 upload failed; staging/orphan objects may remain" (.delete stage) <|
            .done (.ok ())
  else .done (.error (.ValidationError "Invalid MeldStore object key"))

namespace Upload

inductive Backend
  | localStorage
  | s3Storage

def upload : Backend → String → String → Bytes → Call
  | .localStorage => LocalStorage.upload
  | .s3Storage => S3Storage.upload

-- "staging/" + uuid4().hex
def stage (uuid : String) : String := "staging/" ++ uuid

variable (uuid : ι → String) (key : String) (files : ι → Bytes)

-- An upload publishes its whole file where there was no object, or leaves the key.
structure Publishes (i : ι) (s t : Objects ι) : Prop where
  others : ∀ other, other ≠ stage (uuid i) → other ≠ key → t other = s other
  published : t key = s key ∨ s key = none ∧ t key = some ⟨files i, some i⟩

def Visible (removable : String → Prop) (i : ι) : Except Error Unit → Objects ι → Prop
  | .ok _, s => s key = some ⟨files i, some i⟩ ∨ removable key
  | .error _, _ => True

-- The stage of an upload, until somebody deletes it.
def Staged (i : ι) (s : Objects ι) : Prop :=
  s (stage (uuid i)) = none ∨ s (stage (uuid i)) = some ⟨files i, some i⟩

variable {uuid key files} {removable : String → Prop}

theorem stage_ne_of_keyPattern (uuid : String) (h : Backup.keyPattern (.text key) = true) :
    stage uuid ≠ key := by
  rintro rfl
  simp [Backup.keyPattern, stage] at h

theorem Publishes.refl (i : ι) (s : Objects ι) : Publishes uuid key files i s s :=
  ⟨fun _ _ _ => rfl, .inl rfl⟩

theorem Staged.interferes (hfresh : Function.Injective uuid) {i : ι} (hkey : stage (uuid i) ≠ key)
    {s t : Objects ι}
    (h : Interferes (server ι removable) (Publishes uuid key files) i s t) (hs : Staged uuid files i s) :
    Staged uuid files i t := by
  refine Runs.invariant (Staged uuid files i) (fun s t hs hstep => ?_) h hs
  cases hstep with
  | call j hne hpublishes =>
      have hother : stage (uuid i) ≠ stage (uuid j) := fun he =>
        hne (hfresh (String.append_right_inj _ |>.mp he)).symm
      rw [Staged, hpublishes.others _ hother hkey]
      exact hs
  | outside houtside =>
      obtain ⟨removed, _, rfl⟩ := houtside
      by_cases he : stage (uuid i) = removed
      · subst he
        exact .inl (Function.update_self _ _ _)
      · rw [Staged, Function.update_of_ne he]
        exact hs

theorem Visible.interferes {i : ι} {result : Except Error Unit} {s t : Objects ι}
    (h : Interferes (server ι removable) (Publishes uuid key files) i s t)
    (hs : Visible key files removable i result s) : Visible key files removable i result t := by
  cases result with
  | error _ => trivial
  | ok _ =>
      refine Runs.invariant (Visible key files removable i (.ok ())) (fun s t hs hstep => ?_) h hs
      rcases hs with hvisible | hremovable
      · cases hstep with
        | call j _ hpublishes =>
            rcases hpublishes.published with hsame | ⟨hnone, _⟩
            · exact .inl (hsame.trans hvisible)
            · rw [hvisible] at hnone
              cases hnone
        | outside houtside =>
            obtain ⟨removed, hremoved, rfl⟩ := houtside
            by_cases he : key = removed
            · exact .inr (he ▸ hremoved)
            · exact .inl ((Function.update_of_ne he _ _).trans hvisible)
      · exact .inr hremovable

-- One request: what it can do to the objects, and what follows its success.
theorem safe_attempt {i : ι} {s : Objects ι} {message : String} {request : Request} {next : Call}
    (hperform : ∀ t, Interferes (server ι removable) (Publishes uuid key files) i s t →
      Publishes uuid key files i t (perform i request t).1)
    (hnext : ∀ t, Interferes (server ι removable) (Publishes uuid key files) i s t →
      (perform i request t).2 = true → Safe (server ι removable) (Publishes uuid key files)
        (Visible key files removable) i next (perform i request t).1) :
    Safe (server ι removable) (Publishes uuid key files) (Visible key files removable) i
      (attempt message request next) s := by
  have hserves : ∀ t, Interferes (server ι removable) (Publishes uuid key files) i s t → ∀ u ok,
      (server ι removable).serves i request t u ok → Publishes uuid key files i t u := by
    intro t ht u ok hserved
    rcases hserved with ⟨rfl, _⟩ | ⟨rfl, _⟩
    · exact .refl i u
    · exact hperform t ht
  intro t ht
  refine ⟨fun _ u hu => hserves u (ht.trans hu), fun u ok hserved => ⟨hserves t ht u ok hserved, ?_⟩⟩
  cases ok with
  | false => exact fun _ _ => trivial
  | true =>
      rcases hserved with ⟨_, hfailed⟩ | ⟨rfl, hok⟩
      · cases hfailed
      · exact hnext t ht (hok rfl)

theorem safe_done {i : ι} {s : Objects ι} {result : Except Error Unit}
    (h : Visible key files removable i result s) :
    Safe (server ι removable) (Publishes uuid key files) (Visible key files removable) i (.done result) s :=
  fun _ ht => Visible.interferes ht h

theorem publishes_stage {i : ι} (hkey : stage (uuid i) ≠ key) (s : Objects ι) (object : Option (Object ι)) :
    Publishes uuid key files i s (Function.update s (stage (uuid i)) object) :=
  ⟨fun _ hother _ => Function.update_of_ne hother _ _, .inl (Function.update_of_ne hkey.symm _ _)⟩

theorem publishes_key {i : ι} {s : Objects ι} (hnone : s key = none) :
    Publishes uuid key files i s (Function.update s key (some ⟨files i, some i⟩)) :=
  ⟨fun _ _ hother => Function.update_of_ne hother _ _, .inr ⟨hnone, Function.update_self _ _ _⟩⟩

theorem Publishes.stage {i : ι} {s t : Objects ι} (hkey : stage (uuid i) ≠ key)
    (h : Publishes uuid key files i s t) (object : Option (Object ι)) :
    Publishes uuid key files i s (Function.update t (Upload.stage (uuid i)) object) := by
  refine ⟨fun other hother hne => ?_, ?_⟩
  · rw [Function.update_of_ne hother]
    exact h.others other hother hne
  · rw [Function.update_of_ne hkey.symm]
    exact h.published

-- A promotion of a stage, by rename or by copy.
theorem publishes_rename {i : ι} {s : Objects ι} (hkey : stage (uuid i) ≠ key) (hs : Staged uuid files i s) :
    Publishes uuid key files i s (perform i (.rename (stage (uuid i)) key) s).1 ∧
      ((perform i (.rename (stage (uuid i)) key) s).2 = true →
        (perform i (.rename (stage (uuid i)) key) s).1 key = some ⟨files i, some i⟩) := by
  rcases hs with hnone | hstaged
  · simp only [perform, hnone]
    exact ⟨.refl i s, nofun⟩
  · simp only [perform, hstaged]
    cases hobject : s key with
    | some object => exact ⟨.refl i s, nofun⟩
    | none =>
        refine ⟨(publishes_key hobject).stage hkey none, fun _ => ?_⟩
        exact (Function.update_of_ne hkey.symm _ _).trans (Function.update_self _ _ _)

theorem publishes_copy {i : ι} {s : Objects ι} (hs : Staged uuid files i s) :
    Publishes uuid key files i s (perform i (.copy (stage (uuid i)) key) s).1 ∧
      ((perform i (.copy (stage (uuid i)) key) s).2 = true →
        (perform i (.copy (stage (uuid i)) key) s).1 key = some ⟨files i, some i⟩) := by
  rcases hs with hnone | hstaged
  · simp only [perform, hnone]
    exact ⟨.refl i s, nofun⟩
  · simp only [perform, hstaged]
    cases hobject : s key with
    | some object => exact ⟨.refl i s, nofun⟩
    | none => exact ⟨publishes_key hobject, fun _ => Function.update_self _ _ _⟩

theorem publishes_create {i : ι} {s : Objects ι} (hempty : files i = []) :
    Publishes uuid key files i s (perform i (.create key []) s).1 ∧
      ((perform i (.create key []) s).2 = true →
        (perform i (.create key []) s).1 key = some ⟨files i, some i⟩) := by
  rw [hempty]
  cases hobject : s key with
  | some object =>
      simp only [perform, hobject, Option.isSome_some, if_true]
      exact ⟨.refl i s, nofun⟩
  | none =>
      simp only [perform, hobject, Option.isSome_none, Bool.false_eq_true, if_false]
      exact ⟨hempty ▸ publishes_key hobject, fun _ => Function.update_self _ _ _⟩

theorem staged_put (i : ι) (s : Objects ι) :
    Staged uuid files i (perform i (.put (stage (uuid i)) (files i)) s).1 :=
  .inr (Function.update_self _ _ _)

theorem localStorage_safe (hfresh : Function.Injective uuid) (i : ι) (s : Objects ι) :
    Safe (server ι removable) (Publishes uuid key files) (Visible key files removable) i
      (LocalStorage.upload (stage (uuid i)) key (files i)) s := by
  rw [LocalStorage.upload]
  by_cases hvalid : Backup.keyPattern (.text key) = true
  · have hkey := stage_ne_of_keyPattern (uuid i) hvalid
    rw [if_pos hvalid]
    refine safe_attempt (fun t _ => publishes_stage hkey t _) fun t _ _ => ?_
    have hstaged : Staged uuid files i _ := staged_put i t
    refine safe_attempt (fun u hu => ?_) fun u hu hok => ?_
    · exact (publishes_rename hkey (hstaged.interferes hfresh hkey hu)).1
    · exact safe_done (.inl ((publishes_rename hkey (hstaged.interferes hfresh hkey hu)).2 hok))
  · rw [if_neg hvalid]
    exact safe_done trivial

theorem s3Storage_safe (hfresh : Function.Injective uuid) (i : ι) (s : Objects ι) :
    Safe (server ι removable) (Publishes uuid key files) (Visible key files removable) i
      (S3Storage.upload (stage (uuid i)) key (files i)) s := by
  rw [S3Storage.upload]
  by_cases hvalid : Backup.keyPattern (.text key) = true
  · have hkey := stage_ne_of_keyPattern (uuid i) hvalid
    rw [if_pos hvalid]
    by_cases hempty : (files i).length = 0
    · have hnil := List.eq_nil_of_length_eq_zero hempty
      rw [if_pos hempty]
      refine safe_attempt (fun t _ => (publishes_create hnil).1) fun t _ hok => ?_
      exact safe_done (.inl ((@publishes_create _ uuid _ _ i t hnil).2 hok))
    · rw [if_neg hempty]
      refine safe_attempt (fun t _ => publishes_stage hkey t _) fun t _ _ => ?_
      have hstaged : Staged uuid files i _ := staged_put i t
      refine safe_attempt (fun u hu => ?_) fun u hu hok => ?_
      · exact (publishes_copy (hstaged.interferes hfresh hkey hu)).1
      · have hvisible : Visible key files removable i (.ok ()) (perform i (.copy (stage (uuid i)) key) u).1 :=
          .inl ((publishes_copy (hstaged.interferes hfresh hkey hu)).2 hok)
        refine safe_attempt (fun v _ => publishes_stage hkey v none) fun v hv _ => safe_done ?_
        rcases hvisible.interferes hv with hkept | hremovable
        · exact .inl ((Function.update_of_ne hkey.symm _ _).trans hkept)
        · exact .inr hremovable
  · rw [if_neg hvalid]
    exact safe_done trivial

theorem upload_safe (backend : Backend) (hfresh : Function.Injective uuid) (i : ι) (s : Objects ι) :
    Safe (server ι removable) (Publishes uuid key files) (Visible key files removable) i
      (upload backend (stage (uuid i)) key (files i)) s := by
  cases backend with
  | localStorage => exact localStorage_safe hfresh i s
  | s3Storage => exact s3Storage_safe hfresh i s

variable [DecidableEq ι]

-- Any number of uploads of one key of one store.
def uploads (backend : Backend) (uuid : ι → String) (key : String) (files : ι → Bytes) (before : Objects ι) :
    Configuration ι (Objects ι) Request (fun _ => Bool) (Except Error Unit) :=
  { shared := before, threads := fun i => .running (upload backend (stage (uuid i)) key (files i)) }

-- Object publication is create-only on both backends.
theorem publication_is_create_only (backend : Backend) (uuid : ι → String) (hfresh : Function.Injective uuid)
    (key : String) (files : ι → Bytes) (removable : String → Prop) (before : Objects ι)
    (system : Configuration ι (Objects ι) Request (fun _ => Bool) (Except Error Unit))
    (h : Steps (server ι removable) (uploads backend uuid key files before) system) :
    (∀ object, system.shared key = some object → before key = some object ∨ ∃ i, object = ⟨files i, some i⟩) ∧
    (∀ i, system.threads i = .returned (.ok ()) → ¬removable key →
      system.shared key = some ⟨files i, some i⟩) ∧
    (∀ i j, system.threads i = .returned (.ok ()) → system.threads j = .returned (.ok ()) →
      ¬removable key → i = j) ∧
    ∀ actor after, Step (server ι removable) actor system after →
      (∀ object, system.shared key = some object → after.shared key = some object ∨
        actor = none ∧ removable key ∧ after.shared key = none) ∧
      ∀ i, actor = some i → after.shared key = system.shared key ∨
        system.shared key = none ∧ after.shared key = some ⟨files i, some i⟩ := by
  have hidle : ∀ i s, Publishes uuid key files i s s := Publishes.refl
  have hstart : Sound (server ι removable) (Publishes uuid key files) (Visible key files removable)
      (uploads backend uuid key files before) := Sound.of_safe fun i => upload_safe backend hfresh i before
  have hsound := Steps.sound hidle hidle h hstart
  have hreturned : ∀ i, system.threads i = .returned (.ok ()) → ¬removable key →
      system.shared key = some ⟨files i, some i⟩ := by
    intro i hreturned hkept
    have howes := hsound i
    rw [hreturned] at howes
    exact (howes _ .refl).resolve_right hkept
  refine ⟨?_, hreturned, fun i j hi hj hkept => ?_, fun actor after hstep => ?_⟩
  · refine Steps.keeps hidle hidle
      (fun s : Objects ι => ∀ object, s key = some object → before key = some object ∨ ∃ i, object =
        ⟨files i, some i⟩)
      (fun i s t hs hpublishes object hobject => ?_) (fun s t hs houtside object hobject => ?_) h hstart
      fun object hobject => .inl hobject
    · rcases hpublishes.published with hsame | ⟨_, hnew⟩
      · exact hs object (hsame.symm.trans hobject)
      · exact .inr ⟨i, (Option.some.inj (hnew.symm.trans hobject)).symm⟩
    · obtain ⟨removed, _, rfl⟩ := houtside
      by_cases he : key = removed
      · subst he
        rw [Function.update_self] at hobject
        cases hobject
      · rw [Function.update_of_ne he] at hobject
        exact hs object hobject
  · have hsame := (hreturned i hi hkept).symm.trans (hreturned j hj hkept)
    simp only [Option.some.injEq, Object.mk.injEq] at hsame
    exact hsame.2
  · obtain ⟨_, hcalls, houtside⟩ := hstep.sound hidle hidle hsound
    refine ⟨fun object hobject => ?_, fun i hi => (hcalls i hi).published⟩
    cases actor with
    | some i =>
        rcases (hcalls i rfl).published with hsame | ⟨hnone, _⟩
        · exact .inl (hsame.trans hobject)
        · rw [hobject] at hnone
          cases hnone
    | none =>
        obtain ⟨removed, hremoved, hafter⟩ := houtside rfl
        rw [hafter]
        by_cases he : key = removed
        · subst he
          exact .inr ⟨rfl, hremoved, Function.update_self _ _ _⟩
        · exact .inl ((Function.update_of_ne he _ _).trans hobject)

-- Two uploads of different bytes to one key; the second comes to its copy after the first.
def sharedKey : String := "objects/0123456789abcdef0123456789abcdef"

def pair : Bool → Bytes
  | false => [0x61, 0x62, 0x63]
  | true => [0x78]

def numbered (i : Bool) : String := if i then "1" else "0"

def mixed : Configuration Bool (Objects Bool) Request (fun _ => Bool) (Except Error Unit) :=
  uploads .s3Storage numbered sharedKey pair fun _ => none

def firstStaged : Objects Bool := Function.update (fun _ => none) (stage "0") (some ⟨pair false, some false⟩)

def firstCopied : Objects Bool := Function.update firstStaged sharedKey (some ⟨pair false, some false⟩)

def firstDeleted : Objects Bool := Function.update firstCopied (stage "0") none

def secondStaged : Objects Bool := Function.update firstDeleted (stage "1") (some ⟨pair true, some true⟩)

theorem numbered_injective : Function.Injective numbered := by
  intro i j h
  cases i <;> cases j <;> simp_all [numbered]

theorem performs_first :
    Performs (server Bool fun _ => False) false (upload .s3Storage (stage "0") sharedKey (pair false))
    mixed.shared (.ok ()) firstDeleted := by
  have hvalid : Backup.keyPattern (.text sharedKey) = true := by decide
  simp only [upload, S3Storage.upload, if_pos hvalid]
  exact .call true (.inr ⟨rfl, fun _ => rfl⟩) (.call true (.inr ⟨rfl, fun _ => rfl⟩)
    (.call true (.inr ⟨rfl, fun _ => rfl⟩) .done))

theorem performs_second :
    Performs (server Bool fun _ => False) true (upload .s3Storage (stage "1") sharedKey (pair true))
    firstDeleted (.error (.StorageError "S3 upload failed; staging/orphan objects may remain"))
      secondStaged := by
  have hvalid : Backup.keyPattern (.text sharedKey) = true := by decide
  simp only [upload, S3Storage.upload, if_pos hvalid]
  exact .call true (.inr ⟨rfl, fun _ => rfl⟩) (.call false (.inr ⟨rfl, nofun⟩) .done)

theorem first_upload_is_published : ∃ system, Steps (server Bool fun _ => False) mixed system ∧
    system.shared sharedKey = some ⟨[0x61, 0x62, 0x63], some false⟩ ∧
    system.threads true =
      .returned (.error (.StorageError "S3 upload failed; staging/orphan objects may remain")) := by
  have hfirst : Steps (server Bool fun _ => False) mixed
    (mixed.moved firstDeleted false (.returned (.ok ()))) :=
    performs_first.steps rfl rfl
  have hsteps := hfirst.trans (performs_second.steps rfl rfl)
  exact ⟨_, hsteps,
    (publication_is_create_only .s3Storage numbered numbered_injective sharedKey pair _ _ _ hsteps).2.1 false
    rfl id, rfl⟩

end Upload

end MeldStore
