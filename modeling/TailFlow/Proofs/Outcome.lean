import Mathlib.Data.List.Forall2
import TailFlow.Outcome

/-!
# Reading an answer backwards

An operation that answers has answered in each of its steps. The lemmas here take such an answer
apart, one for each way in which operations are put together, and say when a walk along a list
answers.
-/

namespace TailFlow.Outcome

variable {ε α β σ : Type}

theorem bind_eq_ok {first : Except ε α} {next : α → Except ε β} {answer : β} :
    (first >>= next) = .ok answer ↔ ∃ value, first = .ok value ∧ next value = .ok answer := by
  cases first with
  | error stop => exact ⟨nofun, fun ⟨_, hfirst, _⟩ => nomatch hfirst⟩
  | ok value => exact ⟨fun h => ⟨value, rfl, h⟩, fun ⟨_, rfl, h⟩ => h⟩

theorem check_bind_eq_ok {check : Except ε Unit} {next : Unit → Except ε β} {answer : β} :
    (check >>= next) = .ok answer ↔ check = .ok () ∧ next () = .ok answer :=
  bind_eq_ok.trans ⟨fun ⟨(), hcheck, hnext⟩ => ⟨hcheck, hnext⟩,
    fun ⟨hcheck, hnext⟩ => ⟨(), hcheck, hnext⟩⟩

theorem pure_eq_ok {value answer : α} : (pure value : Except ε α) = .ok answer ↔ value = answer :=
  Except.ok.injEq value answer ▸ Iff.rfl

@[simp] theorem ok_bind (value : α) (next : α → Except ε β) :
    ((.ok value : Except ε α) >>= next) = next value := rfl

theorem following_eq_ok {found : Option α} {answer : α} :
    (following found : Outcome ε α) = .ok answer ↔ found = some answer := by
  cases found with
  | none => exact ⟨nofun, nofun⟩
  | some value => simp [following]

theorem ensure_eq_ok {condition : Bool} {cause : ε} {answer : Unit} :
    ensure condition cause = .ok answer ↔ condition = true := by
  cases condition with
  | false => exact ⟨nofun, nofun⟩
  | true => simp

theorem orRefuse_eq_ok {cause : ε} {found : Option α} {answer : α} :
    orRefuse cause found = .ok answer ↔ found = some answer := by
  cases found with
  | none => exact ⟨nofun, nofun⟩
  | some value => simp [orRefuse]

theorem refuse_ne_ok {cause : ε} {answer : α} : (refuse cause : Outcome ε α) ≠ .ok answer := nofun

theorem abort_ne_ok {reason : Abort} {answer : α} :
    (abort reason : Outcome ε α) ≠ .ok answer := nofun

/-! ### Walks along lists -/

theorem mapM_eq_ok {f : α → Except ε β} {items : List α} {answers : List β} :
    items.mapM f = .ok answers
      ↔ List.Forall₂ (fun item answer => f item = .ok answer) items answers := by
  induction items generalizing answers with
  | nil =>
    rw [List.mapM_nil, pure_eq_ok, List.forall₂_nil_left_iff]
    exact eq_comm
  | cons item rest ih =>
    rw [List.mapM_cons, List.forall₂_cons_left_iff]
    simp only [bind_eq_ok, pure_eq_ok, ih]
    constructor
    · rintro ⟨answer, hitem, others, hrest, rfl⟩
      exact ⟨answer, others, hitem, hrest, rfl⟩
    · rintro ⟨answer, others, hitem, hrest, rfl⟩
      exact ⟨answer, hitem, others, hrest, rfl⟩

theorem exists_left_of_forall₂ {R : α → β → Prop} {lefts : List α} {rights : List β}
    (hpairs : List.Forall₂ R lefts rights) {right : β} (hmem : right ∈ rights) :
    ∃ left ∈ lefts, R left right := by
  induction hpairs with
  | nil => cases hmem
  | cons hhead _ ih =>
    rcases List.mem_cons.mp hmem with rfl | hrest
    · exact ⟨_, List.mem_cons_self, hhead⟩
    · obtain ⟨left, hleft, hpair⟩ := ih hrest
      exact ⟨left, .tail _ hleft, hpair⟩

theorem exists_right_of_forall₂ {R : α → β → Prop} {lefts : List α} {rights : List β}
    (hpairs : List.Forall₂ R lefts rights) {left : α} (hmem : left ∈ lefts) :
    ∃ right ∈ rights, R left right :=
  exists_left_of_forall₂ (R := fun right left => R left right) hpairs.flip hmem

theorem forall₂_trans {γ : Type} {r : α → β → Prop} {s : β → γ → Prop} {t : α → γ → Prop}
    (hcomp : ∀ a b c, r a b → s b c → t a c) {as : List α} {bs : List β} {cs : List γ}
    (hfirst : List.Forall₂ r as bs) (hsecond : List.Forall₂ s bs cs) : List.Forall₂ t as cs := by
  induction hfirst generalizing cs with
  | nil => rwa [List.forall₂_nil_left_iff] at hsecond ⊢
  | cons hone _ ih =>
    obtain ⟨c, rest, hone', hrest, rfl⟩ := List.forall₂_cons_left_iff.mp hsecond
    exact .cons (hcomp _ _ _ hone hone') (ih hrest)

theorem item_of_mem_mapM {f : α → Except ε β} {items : List α} {answers : List β}
    (hmap : items.mapM f = .ok answers) {answer : β} (hmem : answer ∈ answers) :
    ∃ item ∈ items, f item = .ok answer :=
  exists_left_of_forall₂ (mapM_eq_ok.mp hmap) hmem

theorem answer_of_mem_mapM {f : α → Except ε β} {items : List α} {answers : List β}
    (hmap : items.mapM f = .ok answers) {item : α} (hmem : item ∈ items) :
    ∃ answer ∈ answers, f item = .ok answer :=
  exists_right_of_forall₂ (mapM_eq_ok.mp hmap) hmem

theorem exists_mapM_eq_ok {f : α → Except ε β} {items : List α}
    (hitems : ∀ item ∈ items, ∃ answer, f item = .ok answer) :
    ∃ answers, items.mapM f = .ok answers := by
  induction items with
  | nil => exact ⟨[], rfl⟩
  | cons item rest ih =>
    obtain ⟨answer, hitem⟩ := hitems item List.mem_cons_self
    obtain ⟨answers, hrest⟩ := ih fun other hmem => hitems other (List.mem_cons_of_mem _ hmem)
    exact ⟨answer :: answers, mapM_eq_ok.mpr (.cons hitem (mapM_eq_ok.mp hrest))⟩

theorem exists_mapM_eq_error {f : α → Except ε β} {items : List α} {item : α} {stop : ε}
    (hmem : item ∈ items) (hstop : f item = .error stop) :
    ∃ first ∈ items, ∃ cause, f first = .error cause ∧ items.mapM f = .error cause := by
  induction items with
  | nil => exact nomatch hmem
  | cons head rest ih =>
    cases hhead : f head with
    | error cause =>
      refine ⟨head, List.mem_cons_self, cause, hhead, ?_⟩
      rw [List.mapM_cons, hhead]
      rfl
    | ok value =>
      have hlater : item ∈ rest := by
        rcases List.mem_cons.mp hmem with rfl | hlater
        · exact nomatch hhead.symm.trans hstop
        · exact hlater
      obtain ⟨first, hfirst, cause, hcause, hrest⟩ := ih hlater
      refine ⟨first, .tail _ hfirst, cause, hcause, ?_⟩
      rw [List.mapM_cons, hhead, ok_bind, hrest]
      rfl

theorem forM_eq_ok {f : α → Except ε Unit} {items : List α} :
    items.forM f = .ok () ↔ ∀ item ∈ items, f item = .ok () := by
  induction items with
  | nil => exact ⟨fun _ => List.forall_mem_nil _, fun _ => rfl⟩
  | cons item rest ih =>
    show (f item >>= fun _ => rest.forM f) = .ok () ↔ _
    rw [check_bind_eq_ok, List.forall_mem_cons, ih]

theorem foldlM_cons_eq_ok {f : σ → α → Except ε σ} {start answer : σ} {item : α}
    {rest : List α} :
    (item :: rest).foldlM f start = .ok answer
      ↔ ∃ middle, f start item = .ok middle ∧ rest.foldlM f middle = .ok answer := by
  rw [List.foldlM_cons, bind_eq_ok]

theorem foldlM_nil_eq_ok {f : σ → α → Except ε σ} {start answer : σ} :
    ([] : List α).foldlM f start = .ok answer ↔ start = answer := by
  rw [List.foldlM_nil, pure_eq_ok]

theorem foldlM_keeps {f : σ → α → Except ε σ} (kept : σ → Prop) {items : List α}
    (hstep : ∀ start item answer, item ∈ items → kept start → f start item = .ok answer →
      kept answer)
    {start answer : σ} (hstart : kept start) (hfold : items.foldlM f start = .ok answer) :
    kept answer := by
  induction items generalizing start with
  | nil => exact foldlM_nil_eq_ok.mp hfold ▸ hstart
  | cons item rest ih =>
    obtain ⟨middle, hitem, hrest⟩ := foldlM_cons_eq_ok.mp hfold
    refine ih (fun start item answer hmem => hstep start item answer (.tail _ hmem)) ?_ hrest
    exact hstep start item middle List.mem_cons_self hstart hitem

/-- A fold answers if its steps do as long as something holds that they keep. -/
theorem exists_foldlM_eq_ok {f : σ → α → Except ε σ} (kept : σ → Prop) {items : List α}
    (hstep : ∀ start item, item ∈ items → kept start →
      ∃ answer, f start item = .ok answer ∧ kept answer)
    {start : σ} (hstart : kept start) :
    ∃ answer, items.foldlM f start = .ok answer ∧ kept answer := by
  induction items generalizing start with
  | nil => exact ⟨start, rfl, hstart⟩
  | cons item rest ih =>
    obtain ⟨middle, hitem, hmiddle⟩ := hstep start item List.mem_cons_self hstart
    obtain ⟨answer, hrest, hanswer⟩ :=
      ih (fun start item hmem => hstep start item (.tail _ hmem)) hmiddle
    exact ⟨answer, foldlM_cons_eq_ok.mpr ⟨middle, hitem, hrest⟩, hanswer⟩

def holds : Except ε Bool → Bool
  | .ok answer => answer
  | .error _ => false

@[simp] theorem holds_ok (answer : Bool) : holds (.ok answer : Except ε Bool) = answer := rfl

theorem exists_of_holds {outcome : Except ε α} (check : α → Prop) [DecidablePred check]
    (hcheck : holds (outcome.map fun answer => decide (check answer)) = true) :
    ∃ answer, outcome = .ok answer ∧ check answer := by
  cases outcome with
  | error stop => exact absurd hcheck Bool.false_ne_true
  | ok answer => exact ⟨answer, rfl, of_decide_eq_true hcheck⟩

theorem exists_of_isOk {outcome : Except ε α} (hok : outcome.isOk) : ∃ answer, outcome = .ok answer := by
  cases outcome with
  | ok answer => exact ⟨answer, rfl⟩
  | error _ => exact nomatch hok

theorem filterM_eq_ok {f : α → Except ε Bool} {items answers : List α} :
    items.filterM f = .ok answers
      ↔ (∀ item ∈ items, ∃ keep, f item = .ok keep) ∧ answers = items.filter fun item =>
        holds (f item) := by
  have haux (held : List α) : ∀ answers, (items.filterAuxM f held = .ok answers
      ↔ (∀ item ∈ items, ∃ keep, f item = .ok keep)
        ∧ answers = (items.filter fun item => holds (f item)).reverse ++ held) := by
    induction items generalizing held with
    | nil =>
      intro answers
      simp only [List.filterAuxM, pure_eq_ok, List.not_mem_nil, false_implies, implies_true,
        true_and, List.filter_nil, List.reverse_nil, List.nil_append]
      exact eq_comm
    | cons item rest ih =>
      intro answers
      rw [List.filterAuxM, bind_eq_ok]
      constructor
      · rintro ⟨keep, hitem, hrest⟩
        obtain ⟨hall, rfl⟩ := (ih _ _).mp hrest
        refine ⟨List.forall_mem_cons.mpr ⟨⟨keep, hitem⟩, hall⟩, ?_⟩
        cases keep <;> simp [hitem]
      · rintro ⟨hall, rfl⟩
        obtain ⟨⟨keep, hitem⟩, hrest⟩ := List.forall_mem_cons.mp hall
        refine ⟨keep, hitem, (ih _ _).mpr ⟨hrest, ?_⟩⟩
        cases keep <;> simp [hitem]
  unfold List.filterM
  simp only [bind_eq_ok, pure_eq_ok, haux]
  constructor
  · rintro ⟨reversed, ⟨hall, rfl⟩, rfl⟩
    exact ⟨hall, by simp⟩
  · rintro ⟨hall, rfl⟩
    exact ⟨_, ⟨hall, rfl⟩, by simp⟩

theorem findM?_eq_ok_none {f : α → Except ε Bool} {items : List α} :
    items.findM? f = .ok none ↔ ∀ item ∈ items, f item = .ok false := by
  induction items with
  | nil => simp [List.findM?, pure_eq_ok]
  | cons item rest ih =>
    rw [List.findM?, bind_eq_ok, List.forall_mem_cons]
    constructor
    · rintro ⟨found, hitem, hrest⟩
      cases found with
      | true => exact absurd (pure_eq_ok.mp hrest) (by simp)
      | false => exact ⟨hitem, ih.mp hrest⟩
    · exact fun ⟨hitem, hrest⟩ => ⟨false, hitem, ih.mpr hrest⟩

theorem exists_findM?_eq_ok {f : α → Except ε Bool} {items : List α}
    (hitems : ∀ item ∈ items, ∃ answer, f item = .ok answer) :
    ∃ found, items.findM? f = .ok found := by
  induction items with
  | nil => exact ⟨none, rfl⟩
  | cons item rest ih =>
    obtain ⟨⟨answer, hitem⟩, hothers⟩ := List.forall_mem_cons.mp hitems
    rw [List.findM?, hitem, ok_bind]
    cases answer with
    | true => exact ⟨some item, rfl⟩
    | false => exact ih hothers

theorem findM?_eq_ok_some {f : α → Except ε Bool} {items : List α} {found : α}
    (hfind : items.findM? f = .ok (some found)) :
    ∃ earlier later, items = earlier ++ found :: later ∧ f found = .ok true
      ∧ ∀ item ∈ earlier, f item = .ok false := by
  induction items with
  | nil => exact absurd (pure_eq_ok.mp hfind) (by simp)
  | cons item rest ih =>
    rw [List.findM?, bind_eq_ok] at hfind
    obtain ⟨here, hitem, hrest⟩ := hfind
    cases here with
    | true =>
      obtain rfl := Option.some.inj (pure_eq_ok.mp hrest)
      exact ⟨[], rest, rfl, hitem, List.forall_mem_nil _⟩
    | false =>
      obtain ⟨earlier, later, rfl, hfound, hearlier⟩ := ih hrest
      exact ⟨item :: earlier, later, rfl, hfound, List.forall_mem_cons.mpr ⟨hitem, hearlier⟩⟩

/-! ### How an operation ends -/

/-- A stop without a verdict, of a kind that has to be accounted for. -/
def IsAbort (reason : Abort) (account : Prop) (stop : Stop ε) : Prop := stop = .abort reason ∧ account

theorem IsAbort.imp {reason : Abort} {account account' : Prop} (himp : account → account')
    {stop : Stop ε} (h : IsAbort reason account stop) : IsAbort reason account' stop :=
  ⟨h.1, himp h.2⟩

/-- An operation answers with something that holds, or ends with a stop that is allowed. -/
def Ends (kept : α → Prop) (allowed : ε → Prop) : Except ε α → Prop
  | .ok answer => kept answer
  | .error stop => allowed stop

section Ends

variable {kept : α → Prop} {kept' : β → Prop} {allowed allowed' : ε → Prop}

theorem Ends.mono {kept' : α → Prop} {outcome : Except ε α} (h : Ends kept allowed outcome)
    (hkept : ∀ answer, outcome = .ok answer → kept answer → kept' answer)
    (hallowed : ∀ stop, allowed stop → allowed' stop) : Ends kept' allowed' outcome := by
  cases outcome with
  | ok answer => exact hkept answer rfl h
  | error stop => exact hallowed stop h

theorem Ends.weaken {outcome : Except ε α} (h : Ends kept allowed outcome)
    (hallowed : ∀ stop, allowed stop → allowed' stop) : Ends kept allowed' outcome :=
  h.mono (fun _ _ h => h) hallowed

theorem Ends.cases {outcome : Except ε α} (h : Ends kept allowed outcome) :
    (∃ answer, outcome = .ok answer ∧ kept answer) ∨ ∃ stop, outcome = .error stop ∧ allowed stop := by
  cases outcome with
  | ok answer => exact .inl ⟨answer, rfl, h⟩
  | error stop => exact .inr ⟨stop, rfl, h⟩

theorem Ends.of_eq_ok {outcome : Except ε α} {answer : α} (h : Ends kept allowed outcome)
    (hok : outcome = .ok answer) : kept answer := by
  rw [hok] at h
  exact h

theorem Ends.bind {first : Except ε α} {next : α → Except ε β} (hfirst : Ends kept allowed first)
    (hnext : ∀ value, first = .ok value → kept value → Ends kept' allowed (next value)) :
    Ends kept' allowed (first >>= next) := by
  cases first with
  | ok value => exact hnext value rfl hfirst
  | error stop => exact hfirst

/-- A fold ends in the way of its steps as long as something holds that they keep. -/
theorem ends_foldlM {f : σ → α → Except ε σ} {kept : σ → Prop} {items : List α}
    (hstep : ∀ start item, item ∈ items → kept start → Ends kept allowed (f start item)) {start : σ}
    (hstart : kept start) : Ends kept allowed (items.foldlM f start) := by
  induction items generalizing start with
  | nil => exact hstart
  | cons item rest ih =>
    rw [List.foldlM_cons]
    refine (hstep start item List.mem_cons_self hstart).bind fun middle _ hmiddle => ?_
    exact ih (fun start other hmem => hstep start other (.tail _ hmem)) hmiddle

/-- What holds of the answers of the steps of a walk holds of all answers of the walk. -/
theorem ends_mapM_forall {f : α → Except ε β} {items : List α}
    (hitems : ∀ item ∈ items, Ends kept' allowed (f item)) :
    Ends (fun answers => ∀ answer ∈ answers, kept' answer) allowed (items.mapM f) := by
  induction items with
  | nil => exact List.forall_mem_nil _
  | cons item rest ih =>
    obtain ⟨hhead, htail⟩ := List.forall_mem_cons.mp hitems
    rw [List.mapM_cons]
    refine hhead.bind fun answer _ hanswer => (ih htail).bind fun answers _ hanswers => ?_
    exact List.forall_mem_cons.mpr ⟨hanswer, hanswers⟩

theorem ends_mapM {f : α → Except ε β} {items : List α}
    (hitems : ∀ item ∈ items, Ends (fun _ => True) allowed (f item)) :
    Ends (fun _ => True) allowed (items.mapM f) :=
  (ends_mapM_forall hitems).mono (fun _ _ _ => trivial) fun _ h => h

theorem ends_refuse {cause : ε} {kept : α → Prop} {allowed : Stop ε → Prop}
    (hallowed : allowed (.refused cause)) : Ends kept allowed (refuse cause) :=
  hallowed

theorem ends_ensure (condition : Bool) (cause : ε) :
    Ends (fun _ => True) (· = .refused cause) (ensure condition cause) := by
  unfold ensure
  split
  · trivial
  · rfl

theorem ends_orRefuse (cause : ε) (found : Option α) :
    Ends (fun answer => found = some answer) (· = .refused cause) (orRefuse cause found) := by
  cases found with
  | none => rfl
  | some answer => rfl

end Ends

end TailFlow.Outcome
