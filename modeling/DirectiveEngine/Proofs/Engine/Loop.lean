import DirectiveEngine.Proofs.Directive.Marker
import DirectiveEngine.Proofs.Engine.PlainLine

/-!
# Loops over plain items

A loop whose lines need no resolution hands the host one line for each item, in the order of the list, and does nothing
else once its source is resolved (`after_executeLoop`).  Items and bodies made of words are such,
wherever the token of the item stands (`loop_dispatches`).
-/

namespace DirectiveEngine

variable {σ : Type} {t : Text} {c : Char}

open Run (after value)

/-! ### Words -/

/-- A letter, a digit or an underscore; of the characters beyond ASCII, any that is not blank. -/
def isWordChar (c : Char) : Bool :=
  c.isAlphanum || c == '_' || (128 ≤ c.toNat && !isBlank c)

/-- A character that separates words, but for the space. -/
def isPunctuation (c : Char) : Bool :=
  c != ' ' && !isWordChar c

/-- One word, or nothing. -/
def IsWord (t : Text) : Prop :=
  ∀ c ∈ t, isWordChar c = true

instance (t : Text) : Decidable (IsWord t) :=
  List.decidableBAll (isWordChar · = true) t

/-- Words with spaces between and around them. -/
def IsWords (t : Text) : Prop :=
  ∀ c ∈ t, c = ' ' ∨ isWordChar c = true

instance (t : Text) : Decidable (IsWords t) :=
  List.decidableBAll (fun c => c = ' ' ∨ isWordChar c = true) t

example : IsWords "Zoë und Bob_7" := by decide

theorem not_isBlank_of_isWordChar (h : isWordChar c = true) : isBlank c = false := by
  simp only [isWordChar, Bool.or_eq_true, Bool.and_eq_true, Bool.not_eq_true', beq_iff_eq] at h
  rcases h with (h | rfl) | h
  · exact not_isBlank_of_isAlphanum h
  · decide
  · exact h.2

theorem IsWord.words (h : IsWord t) : IsWords t :=
  fun c hc => .inr (h c hc)

theorem IsWord.not_isBlank (h : IsWord t) : ∀ c ∈ t, isBlank c = false :=
  fun c hc => not_isBlank_of_isWordChar (h c hc)

theorem IsWord.trim (h : IsWord t) : Text.trim t = t :=
  Text.trim_of_not_isBlank h.not_isBlank

theorem IsWords.not_mem (h : IsWords t) (hc : isPunctuation c = true) : c ∉ t := by
  intro hmem
  rcases h c hmem with rfl | hword
  · exact absurd hc (by decide)
  · simp [isPunctuation, hword] at hc

theorem isWords_join {sep : Text} {parts : List Text} (hsep : IsWords sep) (h : ∀ part ∈ parts, IsWords part) :
    IsWords (Text.join sep parts) := by
  intro c hc
  rcases Text.mem_of_mem_join hc with hc | ⟨part, hpart, hc⟩
  · exact hsep c hc
  · exact h part hpart c hc

theorem not_mem_join_words {sep : Text} {parts : List Text} (h : ∀ part ∈ parts, IsWords part) (hsep : c ∉ sep)
    (hc : isPunctuation c = true) : c ∉ Text.join sep parts := by
  intro hmem
  rcases Text.mem_of_mem_join hmem with hmem | ⟨part, hpart, hmem⟩
  · exact hsep hmem
  · exact (h part hpart).not_mem hc hmem

/-- Blanks and words are plain. -/
theorem isPlainLine_of_chars (h : ∀ c ∈ t, isBlank c = true ∨ isWordChar c = true) : IsPlainLine t := by
  have hall : (',' :: '[' :: '%' :: quietChars).all (fun c => !isBlank c && !isWordChar c) = true := by decide
  have hnot {c : Char} (hc : c ∈ ',' :: '[' :: '%' :: quietChars) : c ∉ t := by
    intro hmem
    have hno := List.all_eq_true.1 hall c hc
    rcases h c hmem with hblank | hword
    · simp [hblank] at hno
    · simp [hword] at hno
  exact ⟨fun c hc hmem => hnot (List.mem_cons_of_mem _ hmem) hc,
    fun hcommas => hnot List.mem_cons_self (hcommas.subset List.mem_cons_self)⟩

theorem IsWords.isPlainLine (h : IsWords t) : IsPlainLine t :=
  isPlainLine_of_chars fun c hc => (h c hc).imp_left fun hspace => by rw [hspace]; decide

/-- An entry of a list that stays as it is when the list is cut. -/
structure IsItem (t : Text) : Prop where
  words : IsWords t
  trim : t.trim = t
  ne_nil : t ≠ []

theorem isPlainLine_items {items : List Text} (h : ∀ item ∈ items, IsItem item) :
    IsPlainLine (Text.join "," items) := by
  have hall : ('[' :: '%' :: ',' :: quietChars).all isPunctuation = true := by decide
  have hpunctuation {c : Char} (hc : c ∈ '[' :: '%' :: ',' :: quietChars) : isPunctuation c = true :=
    List.all_eq_true.1 hall c hc
  have hlisting : IsListing (Text.join "," items) :=
    .inr ⟨items, rfl, fun item hitem =>
      ⟨fun c hc hmem => (h item hitem).words.not_mem (hpunctuation (List.mem_cons_of_mem _ hmem)) hc,
        (h item hitem).ne_nil⟩⟩
  refine ⟨fun c hc hmem => ?_, ?_⟩
  · rcases List.mem_cons.1 hmem with rfl | hmem
    · exact not_mem_join_words (fun item hitem => (h item hitem).words) (by decide) (hpunctuation (by decide)) hc
    · exact hlisting.not_mem hmem hc
  · rw [← Text.contains_eq_false_iff (by simp), Text.contains, hlisting.splitFirst?]
    rfl

/-! ### Cutting lists -/

theorem splitOnP_congr {p q : Char → Bool} (h : ∀ c ∈ t, p c = q c) : t.splitOnP p = t.splitOnP q := by
  induction t with
  | nil => rfl
  | cons c t ih =>
    rw [List.splitOnP_cons_eq_if_modifyHead, List.splitOnP_cons_eq_if_modifyHead, h c List.mem_cons_self,
      ih fun d hd => h d (List.mem_cons_of_mem _ hd)]

/-- A list is cut where it was joined, and its empty entries are left out. -/
theorem splitItems_join (source : Text) {parts : List Text} (h : ∀ part ∈ parts, ',' ∉ part ∧ '\n' ∉ part)
    (htrim : ∀ part ∈ parts, part.trim = part) :
    Engine.splitItems source (Text.join "," parts) = parts.filter fun part => !part.isEmpty := by
  have hbreak : '\n' ∉ Text.join "," parts := by
    intro hc
    rcases Text.mem_of_mem_join hc with hc | ⟨part, hpart, hc⟩
    · exact absurd hc (by decide)
    · exact (h part hpart).2 hc
  have hcut (byLine : Bool) :
      (Text.join "," parts).splitOnP (fun c => c == ',' || (byLine && c == '\n')) =
        (Text.join "," parts).splitOn ',' := by
    refine splitOnP_congr fun c hc => ?_
    have hne : c ≠ '\n' := fun hc' => hbreak (hc' ▸ hc)
    simp [hne]
  have hkept : parts.map Text.trim = parts := List.map_congr_left htrim |>.trans (List.map_id _)
  rw [Engine.splitItems, hcut]
  cases parts with
  | nil => decide
  | cons part parts =>
    have hsplit : (Text.join "," (part :: parts)).splitOn ',' = part :: parts :=
      List.splitOn_intercalate ',' (fun p hp => (h p hp).1) (by simp)
    rw [hsplit, hkept]

/-! ### Reading a loop -/

/-- A loop without other markers and marks is read as its source, its item and the line behind it. -/
theorem Directive.parse_loop {spec : LoopSpec} {line : Text} (hspec : (Marker.loop spec).IsWellFormed)
    (hne : line ≠ []) (hbracket : '[' ∉ line)
    (hfirst : ∀ c ∈ line.head?, isBlank c = false ∧ c ∉ ['/', '#', '!', '-', '+', '$', '%']) :
    let t := (Marker.loop spec).written ++ (' ' :: line)
    Directive.parse t =
      { raw := t.trim, delay := 0, gate := .always, asConsole := false, quiet := false, weight? := none,
        kind := .loop (some spec), body := line.trim } := by
  intro t
  have hblank : ∀ c ∈ line.head?, isBlank c = false := fun c hc => (hfirst c hc).1
  have hhead : line.trim.head? = line.head? := Text.head?_trim hblank
  let h : Heading := ⟨some spec, none, .always, none⟩
  let ms : List (Marker × Text) := [(.loop spec, [' '])]
  have hw : h.IsWrittenAs ms :=
    { markers := .refl _
      blank := fun x hx => by rw [List.mem_singleton.1 hx]; rfl
      wellFormed := fun m hm => by rwa [List.mem_singleton.1 hm] }
  have hraw : t.trim = leftover 0 ms ++ line.trim := by
    have hstart : ∀ c ∈ (leftover 0 ms).head?, isBlank c = false := fun c hc => Option.some.inj hc ▸ rfl
    rw [← Text.trim_append_of_head hstart hblank hne]
    simp [t, ms, leftover]
  have hrest : (leftover 6 ms ++ line.trim).trim = line.trim := by
    have hgap : Text.isBlankText (leftover 6 ms) = true := rfl
    rw [Text.trim_append_left hgap, Text.trim_trim]
  have hbracket : '[' ∉ line.trim := fun hmem => hbracket (Text.mem_of_mem_trim hmem)
  have hmark : (Directive.takeMark '/' line.trim).2 = line.trim :=
    takeMark_of_head fun hc => (hfirst '/' (hhead ▸ hc)).2 (by decide)
  have hfirst : ∀ c ∈ line.trim.head?, c ∉ ['#', '!', '-', '+', '$', '%'] :=
    fun c hc hmem => (hfirst c (hhead ▸ hc)).2 (List.mem_cons_of_mem _ hmem)
  have hmessage := Directive.stripPrefix?_message hfirst
  have hmarked := Directive.parseMarked_command hfirst (Text.trim_trim line) (Text.trim_ne_nil hblank hne)
  have hloop : Directive.takeLoop t.trim = (some (some spec), leftover 1 ms ++ line.trim) := by
    rw [hraw]
    exact hw.takeLoop hbracket
  simp only [Directive.parse, hloop, hw.takeDelay hbracket, hw.takeGate hbracket, hw.takeWeight hbracket, hrest, hmark,
    hmessage, hmarked]
  rfl

/-! ### Running a loop -/

/-- The host was handed lines one after the other, and nothing else was done. -/
def World.dispatched (e : Engine σ) (actor : Actor) (lines : List Text) (w : World σ) : World σ :=
  { w with
    host := lines.foldl (fun h line => e.host.dispatch actor line false h) w.host
    history := (lines.map fun line => (w.now, .dispatch actor line false)).reverse ++ w.history }

theorem World.dispatched_cons (e : Engine σ) (actor : Actor) (line : Text) (lines : List Text) (w : World σ) :
    w.dispatched e actor (line :: lines) =
      (after (e.dispatchLine actor line false) w).dispatched e actor lines := by
  simp only [World.dispatched, List.map_cons, List.reverse_cons, List.append_assoc, List.cons_append, List.nil_append]
  rfl

/-- An action that is a loop runs at once, up to a panic. -/
theorem after_invoke_loop (e : Engine σ) {action : Text} {spec : LoopSpec} {d : Directive}
    (hd : Directive.parse action = d) (hkind : d.kind = .loop (some spec)) (hdelay : d.delay = 0)
    (hgate : d.gate = .always) (hweight : d.weight? = none) (draw : Nat) (actor : Actor) (args : List Text)
    (w : World σ) :
    after (e.invoke draw actor args [action]) w =
      after (e.executeLoop ⟨w.invocations, actor, args⟩ d.body spec).attempt (w.begun action) := by
  have hperform : e.perform ⟨w.invocations, actor, args⟩ d = e.executeLoop ⟨w.invocations, actor, args⟩ d.body spec := by
    rw [Engine.perform, hkind]
  rw [after_invoke_single e hd hdelay hgate hweight, hperform]

private theorem foldl_dispatch (e : Engine σ) (inv : Invocation) {items : List Text} {line : Text → Text}
    (hlines : ∀ item ∈ items, IsPlainLine (line item) ∧ (line item).trim = line item ∧ line item ≠ []) (w : World σ) :
    items.foldl (fun w item => after (do
        let line ← e.resolveFor inv (line item)
        e.dispatch inv inv.actor line false) w) w =
      w.dispatched e inv.actor ((items.map line).filter fun line => line.firstWord.lower ∉ e.config.blacklist) := by
  -- the world is any, as each line is dispatched in the one that the lines before it leave
  induction items generalizing w with
  | nil => rfl
  | cons item items ih =>
    obtain ⟨hplain, htrim, hne⟩ := hlines item List.mem_cons_self
    have hresolve : value (e.resolveFor inv (line item)) w = line item :=
      Engine.value_resolve_plain e hplain _ _ w
    have hstill : after (e.resolveFor inv (line item)) w = w :=
      Engine.after_resolve_plain e hplain _ _ w
    rw [List.foldl_cons, List.map_cons, List.filter_cons, Run.after_bind, hresolve, hstill, Engine.dispatch, htrim,
      if_neg (by simpa using hne), ih fun item hitem => hlines item (List.mem_cons_of_mem _ hitem)]
    by_cases hlisted : (line item).firstWord.lower ∈ e.config.blacklist
    · rw [if_pos hlisted, if_neg (by simpa using hlisted)]
      rfl
    · rw [if_neg hlisted, if_pos (by simpa using hlisted), World.dispatched_cons]

/-- A loop whose lines need no resolution hands those lines to the host that are not on the blacklist, in the world that
is left once its source is resolved. -/
theorem after_executeLoop (e : Engine σ) (inv : Invocation) {body list : Text} {spec : LoopSpec} {items : List Text}
    {w : World σ} (hsource : value (e.resolveFor inv spec.source) w = list)
    (hsafe : ¬ (e.resolveFor inv spec.source).Panics w) (hcut : Engine.splitItems spec.source list = items)
    (hlines : ∀ item ∈ items, IsPlainLine (Engine.itemBody spec body item) ∧
      (Engine.itemBody spec body item).trim = Engine.itemBody spec body item ∧ Engine.itemBody spec body item ≠ []) :
    after (e.executeLoop inv body spec).attempt w =
      (after (e.resolveFor inv spec.source) w).dispatched e inv.actor
        ((items.map (Engine.itemBody spec body)).filter fun line => line.firstWord.lower ∉ e.config.blacklist) := by
  have hitems : Run.IsSafe (do for item in items do e.executeItem inv body spec item) :=
    .forIn fun item hitem => .bind (e.isSafe_resolve_plain (hlines item hitem).1 _ _) fun _ =>
      e.isSafe_dispatch _ _ _ _
  have hloop : ¬ (e.executeLoop inv body spec).Panics w := by
    rw [Engine.executeLoop, Run.panics_bind_iff, hsource, hcut, or_iff_right hsafe]
    exact hitems _
  rw [(Run.attempt_of_not_panics hloop).2, Engine.executeLoop, Run.after_bind, hsource, hcut,
    ← foldl_dispatch e inv hlines]
  exact after_forIn _ items _

/-! ### Loops over words -/

section Items

variable {items : List Text} (hitems : ∀ item ∈ items, IsItem item)
include hitems

theorem join_items_ne_nil (sep : Text) (hne : items ≠ []) : Text.join sep items ≠ [] := by
  obtain ⟨item, rest, rfl⟩ := List.exists_cons_of_ne_nil hne
  have hitem := (hitems item List.mem_cons_self).ne_nil
  cases rest <;> simp [Text.join, List.intercalate_cons_cons, hitem]

theorem trim_join_items (sep : Text) : Text.trim (Text.join sep items) = Text.join sep items := by
  induction items with
  | nil => rfl
  | cons item items ih =>
    have hitem := hitems item List.mem_cons_self
    have hrest : ∀ item ∈ items, IsItem item := fun item hmem => hitems item (List.mem_cons_of_mem _ hmem)
    cases items with
    | nil => simpa [Text.join] using hitem.trim
    | cons next items =>
      have hstart : ∀ c ∈ (item ++ sep).head?, isBlank c = false := by
        rw [List.head?_append_of_ne_nil _ hitem.ne_nil]
        exact (Text.trim_eq_self_iff.1 hitem.trim).1
      have hcons : Text.join sep (item :: next :: items) = item ++ sep ++ Text.join sep (next :: items) := by
        simp [Text.join, List.intercalate_cons_cons]
      rw [hcons, Text.trim_append hstart (ih hrest) (join_items_ne_nil hrest sep (by simp))]

theorem splitItems_join_items (source : Text) : Engine.splitItems source (Text.join "," items) = items := by
  have hcut : ∀ item ∈ items, ',' ∉ item ∧ '\n' ∉ item :=
    fun item hitem => ⟨(hitems item hitem).words.not_mem (by decide), (hitems item hitem).words.not_mem (by decide)⟩
  rw [splitItems_join source hcut fun item hitem => (hitems item hitem).trim, List.filter_eq_self]
  exact fun item hitem => by simpa using (hitems item hitem).ne_nil

theorem isWellFormed_loop (hne : items ≠ []) {v : Text} (hv : IsWord v) :
    (Marker.loop ⟨Text.join "," items, v⟩).IsWellFormed := by
  have hsource {c : Char} (hcomma : c ∉ [',']) (hc : isPunctuation c = true) :
      c ∉ Text.join "," items :=
    not_mem_join_words (fun item hitem => (hitems item hitem).words) hcomma hc
  exact ⟨⟨⟨hsource (by decide) (by decide), hsource (by decide) (by decide)⟩, trim_join_items hitems ",",
    join_items_ne_nil hitems "," hne⟩, ⟨hv.words.not_mem (by decide), hv.words.not_mem (by decide)⟩, hv.trim,
    hv.words.not_mem (by decide)⟩

end Items

/-- What stands between the tokens of a body: words, the first of which stands in front of all tokens. -/
structure IsBody (pieces : List Text) : Prop where
  words : ∀ piece ∈ pieces, IsWords piece
  start : ∃ c first rest, pieces = (c :: first) :: rest ∧ isWordChar c = true

namespace IsBody

variable {pieces : List Text} (h : IsBody pieces)
include h

/-- Whatever stands between the pieces, the first of them is in front. -/
theorem head_join (sep : Text) : ∃ c r, Text.join sep pieces = c :: r ∧ isWordChar c = true := by
  obtain ⟨c, first, rest, rfl, hc⟩ := h.start
  cases rest with
  | nil => exact ⟨c, first, by simp [Text.join], hc⟩
  | cons next rest =>
    exact ⟨c, first ++ (sep ++ Text.join sep (next :: rest)), by simp [Text.join, List.intercalate_cons_cons], hc⟩

theorem not_isBlank_join (sep : Text) : ∀ c ∈ (Text.join sep pieces).head?, isBlank c = false := by
  obtain ⟨c, r, hjoin, hc⟩ := h.head_join sep
  rw [hjoin]
  exact fun d hd => Option.some.inj hd ▸ not_isBlank_of_isWordChar hc

/-- The item takes the place of the tokens, and the end of the last piece is trimmed before and after that. -/
theorem itemBody_trim (spec : LoopSpec) {item : Text} (hitem : IsItem item) :
    Engine.itemBody spec (Text.trim (Text.join ('%' :: spec.item ++ ['%']) pieces)) item =
      Text.trim (Text.join item pieces) := by
  have hsign : ∀ part ∈ Text.trimLast pieces, '%' ∉ part := by
    intro part hpart hmem
    obtain ⟨piece, hpiece, hmem⟩ := Text.mem_of_mem_trimLast hpart hmem
    exact (h.words piece hpiece).not_mem (by decide) hmem
  have hitemEnd := (Text.trim_eq_self_iff.1 hitem.trim).2
  have htokenEnd : ∀ c ∈ ('%' :: spec.item ++ ['%']).getLast?, isBlank c = false := by
    rw [List.getLast?_concat]
    exact fun c hc => Option.some.inj hc ▸ rfl
  rw [Text.trim_eq_trimEnd (h.not_isBlank_join _), Text.trim_eq_trimEnd (h.not_isBlank_join _),
    Text.trimEnd_join (by simp) htokenEnd, Text.trimEnd_join hitem.ne_nil hitemEnd]
  exact Text.replaceAll_join hsign (spec.item ++ ['%']) item

/-- An action that is a loop over a body runs that loop at once, up to a panic. -/
theorem after_invoke (e : Engine σ) {spec : LoopSpec} (hspec : (Marker.loop spec).IsWellFormed) {action : Text}
    (haction : action = (Marker.loop spec).written ++ (' ' :: Text.join ('%' :: spec.item ++ ['%']) pieces))
    (draw : Nat) (actor : Actor) (args : List Text) (w : World σ) :
    after (e.invoke draw actor args [action]) w =
      after (e.executeLoop ⟨w.invocations, actor, args⟩ (Text.trim (Text.join ('%' :: spec.item ++ ['%']) pieces))
        spec).attempt (w.begun action) := by
  obtain ⟨c, r, hcons, hc⟩ := h.head_join ('%' :: spec.item ++ ['%'])
  have hbracket : '[' ∉ Text.join ('%' :: spec.item ++ ['%']) pieces :=
    not_mem_join_words h.words (by simpa using hspec.2.1.1) (by decide)
  have hfirst : ∀ d ∈ (Text.join ('%' :: spec.item ++ ['%']) pieces).head?,
      isBlank d = false ∧ d ∉ ['/', '#', '!', '-', '+', '$', '%'] := by
    intro d hd
    refine ⟨h.not_isBlank_join _ d hd, fun hmem => ?_⟩
    rw [hcons] at hd
    obtain rfl : c = d := Option.some.inj hd
    have hall : (['/', '#', '!', '-', '+', '$', '%'].all fun c => !isWordChar c) = true := by decide
    have hno := List.all_eq_true.1 hall c hmem
    simp [hc] at hno
  have hread := Directive.parse_loop hspec (by rw [hcons]; simp) hbracket hfirst
  rw [← haction] at hread
  exact after_invoke_loop e hread rfl rfl rfl rfl draw actor args w

/-- A loop over a body hands the host a line for each item, but for those on the blacklist. -/
theorem after_executeLoop_source (e : Engine σ) (inv : Invocation) {spec : LoopSpec} {list : Text} {items : List Text}
    (hitems : ∀ item ∈ items, IsItem item) {w : World σ} (hsource : value (e.resolveFor inv spec.source) w = list)
    (hsafe : ¬ (e.resolveFor inv spec.source).Panics w) (hcut : Engine.splitItems spec.source list = items) :
    after (e.executeLoop inv (Text.trim (Text.join ('%' :: spec.item ++ ['%']) pieces)) spec).attempt w =
      (after (e.resolveFor inv spec.source) w).dispatched e inv.actor
        ((items.map fun item => Text.trim (Text.join item pieces)).filter fun line =>
          line.firstWord.lower ∉ e.config.blacklist) := by
  have hline : ∀ item ∈ items,
      Engine.itemBody spec (Text.trim (Text.join ('%' :: spec.item ++ ['%']) pieces)) item =
        Text.trim (Text.join item pieces) :=
    fun item hitem => h.itemBody_trim spec (hitems item hitem)
  rw [← List.map_congr_left hline]
  refine DirectiveEngine.after_executeLoop e inv hsource hsafe hcut fun item hitem => ?_
  rw [hline item hitem]
  have hwords := isWords_join (hitems item hitem).words h.words
  obtain ⟨c, r, hcons, -⟩ := h.head_join item
  exact ⟨hwords.isPlainLine.subtext (Text.trim_isInfix _), Text.trim_trim _,
    Text.trim_ne_nil (h.not_isBlank_join item) (by rw [hcons]; simp)⟩

/-- The same over a source that is resolved without effect. -/
theorem after_executeLoop (e : Engine σ) (inv : Invocation) {spec : LoopSpec} {list : Text} {items : List Text}
    (hitems : ∀ item ∈ items, IsItem item) {w : World σ} (hsource : value (e.resolveFor inv spec.source) w = list)
    (hsafe : ¬ (e.resolveFor inv spec.source).Panics w) (hstill : after (e.resolveFor inv spec.source) w = w)
    (hcut : Engine.splitItems spec.source list = items) :
    after (e.executeLoop inv (Text.trim (Text.join ('%' :: spec.item ++ ['%']) pieces)) spec).attempt w =
      w.dispatched e inv.actor ((items.map fun item => Text.trim (Text.join item pieces)).filter fun line =>
        line.firstWord.lower ∉ e.config.blacklist) := by
  rw [h.after_executeLoop_source e inv hitems hsource hsafe hcut, hstill]

end IsBody

/-- Lines that share their first word are on the blacklist all or none. -/
theorem filter_firstWord (e : Engine σ) {lines : List Text} {word : Text}
    (h : ∀ line ∈ lines, line.firstWord.lower = word) :
    (lines.filter fun line => line.firstWord.lower ∉ e.config.blacklist) =
      if word ∈ e.config.blacklist then [] else lines := by
  split
  · refine List.filter_eq_nil_iff.2 fun line hline => ?_
    rw [h line hline]
    simpa
  · refine List.filter_eq_self.2 fun line hline => ?_
    rw [h line hline]
    simpa

/-- A loop over words hands the host its body once for each item, in the order of the items and with the item in the
place of every token, and does nothing else. -/
theorem loop_dispatches (e : Engine σ) {items pieces : List Text} {v : Text} (hitems : ∀ item ∈ items, IsItem item)
    (hne : items ≠ []) (hv : IsWord v) (hbody : IsBody pieces)
    (hallowed : ∀ item ∈ items, (Text.trim (Text.join item pieces)).firstWord.lower ∉ e.config.blacklist)
    (draw : Nat) (actor : Actor) (args : List Text) (w : World σ) :
    let action : Text := "[foreach:" ++ Text.join "," items ++ ":" ++ v ++ "] " ++ Text.join ('%' :: v ++ ['%']) pieces
    after (e.invoke draw actor args [action]) w =
      (w.begun action).dispatched e actor (items.map fun item => Text.trim (Text.join item pieces)) := by
  intro action
  let spec : LoopSpec := ⟨Text.join "," items, v⟩
  let inv : Invocation := ⟨w.invocations, actor, args⟩
  have haction : action = (Marker.loop spec).written ++ (' ' :: Text.join ('%' :: v ++ ['%']) pieces) := by
    simp only [action, Marker.written, Marker.remainder, Marker.inside, List.append_assoc]
    rfl
  have hplain : IsPlainLine spec.source := isPlainLine_items hitems
  have hsource := Engine.value_resolve_plain e hplain actor args (w.begun action)
  have hstill := Engine.after_resolve_plain e hplain actor args (w.begun action)
  have hsafe := Engine.isSafe_resolve_plain e hplain actor args (w.begun action)
  have hkept : ((items.map fun item => Text.trim (Text.join item pieces)).filter fun line =>
      line.firstWord.lower ∉ e.config.blacklist) = items.map fun item => Text.trim (Text.join item pieces) := by
    refine List.filter_eq_self.2 fun line hline => ?_
    obtain ⟨item, hitem, rfl⟩ := List.mem_map.1 hline
    simpa using hallowed item hitem
  rw [hbody.after_invoke e (isWellFormed_loop hitems hne hv) haction,
    hbody.after_executeLoop e inv hitems hsource hsafe hstill (splitItems_join_items hitems _), hkept]

/-- Two items, one of them of two words, and a piece that is spelled like the name of the item. -/
theorem loop_dispatches_two :
    let e : Engine Script := { host := Script.host, config := {} }
    let w : World Script := { host := { files := ⟨[], [], []⟩ } }
    let action : Text := "[foreach:Bob,big dog:x] say %x%x%x% "
    after (e.invoke 0 .console [] [action]) w =
      (w.begun action).dispatched e .console ["say BobxBob", "say big dogxbig dog"] := by
  intro e w action
  have hitems : ∀ item ∈ [("Bob" : Text), "big dog"], IsItem item := by
    intro item hitem
    rcases List.mem_cons.1 hitem with rfl | hitem
    · exact ⟨by decide, by decide, by decide⟩
    · rw [List.mem_singleton.1 hitem]
      exact ⟨by decide, by decide, by decide⟩
  have hbody : IsBody ["say ", "x", " "] := ⟨by decide, 's', "ay ", ["x", " "], rfl, by decide⟩
  have hallowed : ∀ item ∈ [("Bob" : Text), "big dog"],
      (Text.trim (Text.join item ["say ", "x", " "])).firstWord.lower ∉ e.config.blacklist := by decide +kernel
  exact loop_dispatches e hitems (by decide) (v := "x") (by decide) hbody hallowed 0 .console [] w

end DirectiveEngine
