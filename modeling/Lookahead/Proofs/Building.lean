import Mathlib.Data.List.Basic
import Mathlib.Data.List.Pairwise
import Lookahead.Proofs.Draft

/-!
# Grammars as they are built

A grammar is built by definitions that are asked for one after another, well formed or not.  A
definition offends (`Draft.Offends`) when its left side is no nonterminal or one of its productions
holds a symbol that may not stand there.  What is wrong with the first definition that offends
(`Draft.FirstOffence`) is kept for good, whatever is defined later.

If no definition offends, the grammar keeps all that was defined (`Grammar.Keeps`).  Each
nonterminal stands in the place of its first definition, with the productions of all of its
definitions in order.  That the list of all rules is made of the rules of each nonterminal, block by
block, is read off the left sides (`flatMap_filter_of_map_eq`), and that symbols are listed as they
are first met is a matter of erasing repetitions from a reading (`firstMet_eraseDups`).

**Building** (`Draft.grammar_defineAll`).  A list of definitions comes to the first offence, or to a
grammar that keeps them all, or it is empty.
-/

namespace Lookahead

/-! ### The order in which things are first met -/

section FirstMet

variable {α : Type} [BEq α] [LawfulBEq α]

/-- The list has what a reading meets, each once, in the order in which it is first met. -/
structure FirstMet (reading l : List α) : Prop where
  nodup : l.Nodup
  mem : ∀ a, a ∈ l ↔ a ∈ reading
  order : l.Pairwise fun a b => reading.idxOf a < reading.idxOf b

theorem idxOf_cons_of_ne {a b : α} (h : a ≠ b) (l : List α) :
    (a :: l).idxOf b = l.idxOf b + 1 := by
  rw [List.idxOf_cons, beq_false_of_ne h, cond_false]

/-- What is left of a reading is met in the same order as before. -/
theorem idxOf_lt_of_filter {P : α → Bool} {l : List α} {a b : α} (ha : P a = true)
    (hb : P b = true) (h : (l.filter P).idxOf a < (l.filter P).idxOf b) :
    l.idxOf a < l.idxOf b := by
  induction l with
  | nil => exact h
  | cons c rest ih =>
      by_cases hc : P c = true
      · rw [List.filter_cons_of_pos hc, List.idxOf_cons, List.idxOf_cons] at h
        rw [List.idxOf_cons, List.idxOf_cons]
        cases hca : c == a <;> cases hcb : c == b <;> simp_all
      · have hca : c ≠ a := fun e => hc (e ▸ ha)
        have hcb : c ≠ b := fun e => hc (e ▸ hb)
        rw [List.filter_cons_of_neg hc] at h
        rw [idxOf_cons_of_ne hca, idxOf_cons_of_ne hcb]
        exact Nat.succ_lt_succ (ih h)

theorem pairwise_idxOf_eraseDups (l : List α) :
    l.eraseDups.Pairwise fun a b => l.idxOf a < l.idxOf b := by
  cases l with
  | nil => simp
  | cons a rest =>
      have hkept : ∀ b ∈ (rest.filter fun b => !b == a).eraseDups, (!b == a) = true := fun b hb =>
        (List.mem_filter.mp (List.mem_eraseDups.mp hb)).2
      have hne : ∀ b ∈ (rest.filter fun b => !b == a).eraseDups, a ≠ b := by
        rintro b hb rfl
        simpa using hkept a hb
      rw [List.eraseDups_cons, List.pairwise_cons]
      refine ⟨fun b hb => ?_, ?_⟩
      · rw [List.idxOf_cons_self, idxOf_cons_of_ne (hne b hb)]
        exact Nat.succ_pos _
      · refine (pairwise_idxOf_eraseDups (rest.filter fun b => !b == a)).imp_of_mem ?_
        intro b c hb hc hlt
        rw [idxOf_cons_of_ne (hne b hb), idxOf_cons_of_ne (hne c hc)]
        exact Nat.succ_lt_succ (idxOf_lt_of_filter (hkept b hb) (hkept c hc) hlt)
termination_by l.length
decreasing_by exact Nat.lt_succ_of_le (List.length_filter_le _ _)

theorem firstMet_eraseDups (reading : List α) : FirstMet reading reading.eraseDups where
  nodup := nodup_eraseDups reading
  mem _ := List.mem_eraseDups
  order := pairwise_idxOf_eraseDups reading

end FirstMet

/-- A list whose keys come in blocks, a block for each of different keys, is the blocks put
together. -/
theorem flatMap_filter_of_map_eq {α β : Type} [DecidableEq α] {key : β → α} {ks : List α}
    {n : α → Nat} (hks : ks.Nodup) {l : List β}
    (h : l.map key = ks.flatMap fun k => List.replicate (n k) k) :
    (ks.flatMap fun k => l.filter fun b => key b = k) = l := by
  induction ks generalizing l with
  | nil => exact (List.map_eq_nil_iff.mp h).symm
  | cons k ks ih =>
      obtain ⟨hk, hks⟩ := List.nodup_cons.mp hks
      rw [List.flatMap_cons] at h
      obtain ⟨block, rest, rfl, hblock, hrest⟩ := List.map_eq_append_iff.mp h
      have hown : ∀ b ∈ block, key b = k := fun b hb =>
        List.eq_of_mem_replicate (hblock ▸ List.mem_map.mpr ⟨b, hb, rfl⟩)
      have hother : ∀ b ∈ rest, key b ∈ ks := by
        intro b hb
        have hmem := hrest ▸ List.mem_map.mpr ⟨b, hb, rfl⟩
        obtain ⟨k', hk', hmem⟩ := List.mem_flatMap.mp hmem
        exact List.eq_of_mem_replicate hmem ▸ hk'
      -- the block has all entries of its own key and none of a later one
      have hfirst : ((block ++ rest).filter fun b => key b = k) = block := by
        have hself : (block.filter fun b => key b = k) = block :=
          List.filter_eq_self.mpr fun b hb => decide_eq_true (hown b hb)
        have hnone : (rest.filter fun b => key b = k) = [] :=
          List.filter_eq_nil_iff.mpr fun b hb e => hk (of_decide_eq_true e ▸ hother b hb)
        rw [List.filter_append, hself, hnone, List.append_nil]
      have hlater : ∀ k' ∈ ks, ((block ++ rest).filter fun b => key b = k') =
          rest.filter fun b => key b = k' := by
        intro k' hk'
        have hnone : (block.filter fun b => key b = k') = [] := by
          refine List.filter_eq_nil_iff.mpr fun b hb e => hk ?_
          rwa [← hown b hb, of_decide_eq_true e]
        rw [List.filter_append, hnone, List.nil_append]
      rw [List.flatMap_cons, hfirst, List.flatMap_congr hlater, ih hks hrest]

/-! ### Productions at fault -/

namespace Production

variable {p : Production} {X : Symbol} {f : ProductionFault}

/-- What is wrong with a symbol of a production. -/
inductive Misplaced (p : Production) : Symbol → ProductionFault → Prop where
  | endMarker : Misplaced p .endMarker .endMarker
  | epsilon (h : 1 < p.length) : Misplaced p .epsilon .mixedEpsilon
  | absent : Misplaced p .absent .absentSymbol

/-- Whether a production holds `←`, or no symbol at all, or `ϵ` and something else. -/
def Offends (p : Production) : Prop :=
  .endMarker ∈ p ∨ .absent ∈ p ∨ .epsilon ∈ p ∧ 1 < p.length

/-- What is wrong with the first symbol that may not stand where it does. -/
def FirstFault (p : Production) (f : ProductionFault) : Prop :=
  ∃ front X back, p = front ++ X :: back ∧ p.Misplaced X f ∧
    ∀ Y ∈ front, ∀ f', ¬ p.Misplaced Y f'

theorem symbolFault?_eq_some_iff : p.symbolFault? X = some f ↔ p.Misplaced X f := by
  refine ⟨fun h => ?_, ?_⟩
  · cases X with
    | absent => cases h; exact .absent
    | nonterminal _ | terminal _ => cases h
    | epsilon =>
        by_cases hlen : 1 < p.length
        · simp only [symbolFault?, Symbol.isEndMarker, Symbol.isEpsilon, hlen] at h
          cases h
          exact .epsilon hlen
        · simp [symbolFault?, Symbol.isEndMarker, Symbol.isEpsilon, Symbol.isAbsent, hlen] at h
    | endMarker => cases h; exact .endMarker
  · rintro (_ | hlen | _)
    · rfl
    · simp [symbolFault?, Symbol.isEndMarker, Symbol.isEpsilon, hlen]
    · rfl

theorem symbolFault?_eq_none_iff_misplaced :
    p.symbolFault? X = none ↔ ∀ f, ¬ p.Misplaced X f := by
  simp only [Option.eq_none_iff_forall_ne_some, ne_eq, symbolFault?_eq_some_iff]

theorem fault?_eq_some_iff : p.fault? = some f ↔ p.FirstFault f := by
  simp only [fault?, List.findSome?_eq_some_iff, symbolFault?_eq_some_iff,
    symbolFault?_eq_none_iff_misplaced, FirstFault]

theorem offends_iff_exists_misplaced : p.Offends ↔ ∃ X ∈ p, ∃ f, p.Misplaced X f := by
  refine ⟨?_, ?_⟩
  · rintro (h | h | ⟨h, hlen⟩)
    · exact ⟨_, h, _, .endMarker⟩
    · exact ⟨_, h, _, .absent⟩
    · exact ⟨_, h, _, .epsilon hlen⟩
  · rintro ⟨X, hX, f, _ | hlen | _⟩
    · exact .inl hX
    · exact .inr (.inr ⟨hX, hlen⟩)
    · exact .inr (.inl hX)

theorem fault?_eq_none_iff_not_offends : p.fault? = none ↔ ¬ p.Offends := by
  simp only [fault?, List.findSome?_eq_none_iff, symbolFault?_eq_none_iff_misplaced,
    offends_iff_exists_misplaced, not_exists, not_and]

end Production

/-! ### Definitions that offend -/

namespace Draft

variable {d : Draft} {r : Symbol × List Production} {rs : List (Symbol × List Production)}
  {e : DraftError}

/-- Whether a definition has a left side that is no nonterminal, or a production that offends. -/
def Offends (r : Symbol × List Production) : Prop :=
  ¬ r.1.isNonterminal ∨ ∃ p ∈ r.2, p.Offends

/-- What is wrong with a definition that offends: its left side, or else the first production that
offends. -/
inductive Offence : Symbol × List Production → DraftError → Prop where
  | leftSide {A : Symbol} {ps : List Production} (hA : ¬ A.isNonterminal) :
      Offence (A, ps) (.leftSide A)
  | production {A : Symbol} {good : List Production} {p : Production} {more : List Production}
      {f : ProductionFault} (hA : A.isNonterminal) (hgood : ∀ q ∈ good, ¬ q.Offends)
      (hp : p.FirstFault f) : Offence (A, good ++ p :: more) (.production A p f)

/-- What is wrong with the first definition that offends. -/
def FirstOffence (rs : List (Symbol × List Production)) (e : DraftError) : Prop :=
  ∃ before r behind, rs = before ++ r :: behind ∧ Offence r e ∧ ∀ s ∈ before, ¬ Offends s

/-- What a definition adds to the faults of a draft. -/
def offence? (r : Symbol × List Production) : Option DraftError :=
  if r.1.isNonterminal then faultAmong? r.1 r.2 else some (.leftSide r.1)

theorem offence?_eq_some_iff : offence? r = some e ↔ Offence r e := by
  obtain ⟨A, ps⟩ := r
  refine ⟨fun h => ?_, ?_⟩
  · by_cases hA : A.isNonterminal
    · rw [offence?, if_pos hA, faultAmong?, List.findSome?_eq_some_iff] at h
      obtain ⟨good, p, more, rfl, hp, hgood⟩ := h
      obtain ⟨f, hf, rfl⟩ := Option.map_eq_some_iff.mp hp
      refine .production hA (fun q hq => ?_) (Production.fault?_eq_some_iff.mp hf)
      exact Production.fault?_eq_none_iff_not_offends.mp (Option.map_eq_none_iff.mp (hgood q hq))
    · rw [offence?, if_neg hA] at h
      cases h
      exact .leftSide hA
  · rintro (hA | ⟨hA, hgood, hp⟩)
    · exact if_neg hA
    · rw [offence?, if_pos hA, faultAmong?, List.findSome?_eq_some_iff]
      refine ⟨_, _, _, rfl, ?_, fun q hq => ?_⟩
      · rw [Production.fault?_eq_some_iff.mpr hp, Option.map_some]
      · rw [Production.fault?_eq_none_iff_not_offends.mpr (hgood q hq), Option.map_none]

theorem offence?_eq_none_iff : offence? r = none ↔ ¬ Offends r := by
  obtain ⟨A, ps⟩ := r
  by_cases hA : A.isNonterminal
  · simp [offence?, faultAmong?, Offends, hA, Production.fault?_eq_none_iff_not_offends]
  · simp [offence?, Offends, hA]

theorem findSome?_offence?_eq_some_iff : rs.findSome? offence? = some e ↔ FirstOffence rs e := by
  simp only [List.findSome?_eq_some_iff, offence?_eq_some_iff, offence?_eq_none_iff, FirstOffence]

theorem exists_firstOffence (h : ∃ r ∈ rs, Offends r) : ∃ e, FirstOffence rs e := by
  obtain ⟨r, hr, hoffends⟩ := h
  have hsome : (rs.findSome? offence?).isSome := by
    refine List.findSome?_isSome_iff.mpr ⟨r, hr, Option.isSome_iff_ne_none.mpr fun hnone => ?_⟩
    exact offence?_eq_none_iff.mp hnone hoffends
  obtain ⟨e, he⟩ := Option.isSome_iff_exists.mp hsome
  exact ⟨e, findSome?_offence?_eq_some_iff.mp he⟩

/-! ### Defining in a row -/

/-- The draft after some definitions, one after another. -/
def defineAll (d : Draft) (rs : List (Symbol × List Production)) : Draft :=
  rs.foldl (fun d r => d.define r.1 r.2) d

theorem fault?_define (d : Draft) (A : Symbol) (ps : List Production) :
    (d.define A ps).fault? = d.fault?.or (offence? (A, ps)) := by
  by_cases hA : A.isNonterminal <;> simp [define, fail, offence?, hA]

theorem fault?_defineAll (d : Draft) (rs : List (Symbol × List Production)) :
    (d.defineAll rs).fault? = d.fault?.or (rs.findSome? offence?) := by
  induction rs generalizing d with
  | nil => simp [defineAll]
  | cons r rest ih =>
      show ((d.define r.1 r.2).defineAll rest).fault? = _
      rw [ih, fault?_define, List.findSome?_cons, Option.or_assoc]
      cases offence? r <;> simp

/-- The first offence is kept whatever is defined later. -/
theorem grammar_of_firstOffence {name : List UInt8} (h : FirstOffence rs e)
    (more : List (Symbol × List Production)) :
    ((empty name).defineAll (rs ++ more)).grammar = .error e := by
  have hfault : ((empty name).defineAll (rs ++ more)).fault? = some e := by
    rw [fault?_defineAll, List.findSome?_append, findSome?_offence?_eq_some_iff.mpr h]
    rfl
  simp [grammar, hfault]

theorem Gathers.defineAll {name : List UInt8} {old : List (Symbol × List Production)}
    (h : d.Gathers name old) (hrs : ∀ r ∈ rs, ¬ Offends r) :
    (d.defineAll rs).Gathers name (old ++ rs) := by
  induction rs generalizing d old with
  | nil => simpa [Draft.defineAll] using h
  | cons r rest ih =>
      obtain ⟨hr, hrest⟩ := List.forall_mem_cons.mp hrs
      obtain ⟨hA, hps⟩ := not_or.mp hr
      have hproper : ∀ p ∈ r.2, p.Proper := fun p hp =>
        Production.fault?_eq_none_iff.mp
          (Production.fault?_eq_none_iff_not_offends.mpr fun hp' => hps ⟨p, hp, hp'⟩)
      have hnext := ih (h.define (not_not.mp hA) hproper) hrest
      rwa [List.append_assoc] at hnext

end Draft

/-! ### A grammar by its nonterminals -/

namespace Grammar

variable {g : Grammar}

/-- The sides that a list of definitions lists for a nonterminal are those of its definitions. -/
theorem filter_sides (g : Grammar) (A : Symbol) :
    (g.sides.filter fun side => side.1 = A) =
      (g.definitions.filter fun d => d.lhs = A).flatMap fun d =>
        d.alternatives.map fun p => (d.lhs, p) := by
  rw [sides]
  induction g.definitions with
  | nil => rfl
  | cons d rest ih =>
      rw [List.flatMap_cons, List.filter_append, ih]
      by_cases hd : d.lhs = A <;> simp [List.filter_map, Function.comp_def, hd]

theorem map_rulesFor (g : Grammar) (A : Symbol) :
    ((g.rulesFor A).map fun r => (r.lhs, r.rhs)) = g.sides.filter fun side => side.1 = A := by
  rw [← map_rules, List.filter_map]
  rfl

theorem productions_eq (g : Grammar) (A : Symbol) :
    g.productions A =
      (g.definitions.filter fun d => d.lhs = A).flatMap Definition.alternatives := by
  have hsnd := congrArg (List.map Prod.snd) ((map_rulesFor g A).trans (filter_sides g A))
  simpa [productions, List.map_flatMap, Function.comp_def] using hsnd

/-- The productions of a nonterminal are the alternatives of its definition. -/
theorem productions_lhs {d : Definition} (hd : d ∈ g.definitions) :
    g.productions d.lhs = d.alternatives := by
  rw [productions_eq, Definition.filter_lhs_of_nodup g.wellFormed.nodup d hd,
    List.flatMap_singleton]

theorem productions_of_notMem {A : Symbol} (hA : A ∉ g.nonterminals) : g.productions A = [] := by
  have hnone : (g.definitions.filter fun d => d.lhs = A) = [] :=
    List.filter_eq_nil_iff.mpr fun d hd e =>
      hA (List.mem_map.mpr ⟨d, hd, of_decide_eq_true e⟩)
  rw [productions_eq, hnone, List.flatMap_nil]

/-- The rules of a nonterminal are its productions, each with the nonterminal on the left. -/
theorem map_rulesFor_eq (g : Grammar) (A : Symbol) :
    ((g.rulesFor A).map fun r => (r.lhs, r.rhs)) = (g.productions A).map fun p => (A, p) := by
  rw [productions, List.map_map]
  exact List.map_congr_left fun r hr => by rw [Function.comp_apply, (mem_rulesFor.mp hr).2]

theorem sides_eq (g : Grammar) :
    g.sides = g.nonterminals.flatMap fun A => (g.productions A).map fun p => (A, p) := by
  rw [sides, nonterminals, List.flatMap_map]
  exact List.flatMap_congr fun d hd => by rw [productions_lhs hd]

/-- All rules are the rules of each nonterminal, one nonterminal after another. -/
theorem rules_eq_flatMap (g : Grammar) : g.rules = g.nonterminals.flatMap g.rulesFor := by
  refine (flatMap_filter_of_map_eq (n := fun A => (g.productions A).length)
    g.wellFormed.nodup ?_).symm
  calc g.rules.map Rule.lhs = g.sides.map Prod.fst := by rw [← map_rules, List.map_map]; rfl
    _ = _ := by rw [sides_eq, List.map_flatMap]; simp [Function.comp_def, nonterminals]

/-- Each nonterminal followed by its productions, symbol by symbol. -/
def reading (g : Grammar) : List Symbol :=
  g.nonterminals.flatMap fun A => A :: (g.productions A).flatten

theorem reading_eq_occurrences (g : Grammar) : g.reading = g.occurrences := by
  rw [reading, nonterminals, List.flatMap_map]
  exact List.flatMap_congr fun d hd => by rw [productions_lhs hd]

/-- The rule asked for by a number has this number. -/
theorem exists_rule?_of_le_size {i : Int} (hpos : 1 ≤ i) (hsize : i ≤ g.size) :
    ∃ r, g.rule? i = some r ∧ r.serial = i := by
  have hlt : (i - 1).toNat < g.rules.length := by
    rw [size] at hsize
    omega
  have hget := List.getElem?_eq_getElem hlt
  refine ⟨_, by rw [rule?, if_neg (by omega), hget], ?_⟩
  rw [serial_of_getElem? hget]
  omega

/-- What a grammar keeps of the definitions it was built of. -/
structure Keeps (g : Grammar) (name : List UInt8) (rs : List (Symbol × List Production)) :
    Prop where
  name : g.name = name
  /-- The left sides stand in the order of their first definitions. -/
  nonterminals : FirstMet (rs.map Prod.fst) g.nonterminals
  /-- A nonterminal has the productions of all of its definitions in order. -/
  rulesFor : ∀ A, ((g.rulesFor A).map fun r => (r.lhs, r.rhs)) =
    ((rs.filter fun r => r.1 = A).flatMap Prod.snd).map fun p => (A, p)
  rules : g.rules = g.nonterminals.flatMap g.rulesFor
  serial : ∀ i : Int, 1 ≤ i → i ≤ g.size → ∃ r, g.rule? i = some r ∧ r.serial = i
  referenced : FirstMet (g.reading.filter Symbol.isNonterminal) g.referenced
  terminals : FirstMet (g.reading.filter Symbol.isTerminal) g.terminals

section Gathered

variable {rs : List (Symbol × List Production)}

theorem nonterminals_of_gathered (h : g.definitions = Definition.gathered rs) :
    g.nonterminals = (rs.map Prod.fst).eraseDups := by
  rw [nonterminals, h, Definition.gathered, List.map_map]
  exact List.map_id _

theorem productions_of_gathered (h : g.definitions = Definition.gathered rs) (A : Symbol) :
    g.productions A = (rs.filter fun r => r.1 = A).flatMap Prod.snd := by
  by_cases hA : A ∈ rs.map Prod.fst
  · have hd : ⟨A, (rs.filter fun r => r.1 = A).flatMap Prod.snd⟩ ∈ g.definitions := by
      rw [h]
      exact List.mem_map.mpr ⟨A, List.mem_eraseDups.mpr hA, rfl⟩
    exact productions_lhs hd
  · have hA' : A ∉ g.nonterminals := by
      rwa [nonterminals_of_gathered h, List.mem_eraseDups]
    rw [productions_of_notMem hA', Definition.alternatives_of_notMem hA]

theorem keeps_of_gathered {name : List UInt8} (hname : g.name = name)
    (h : g.definitions = Definition.gathered rs) : g.Keeps name rs where
  name := hname
  nonterminals := nonterminals_of_gathered h ▸ firstMet_eraseDups _
  rulesFor A := by rw [map_rulesFor_eq, productions_of_gathered h]
  rules := rules_eq_flatMap g
  serial _ := exists_rule?_of_le_size
  referenced := by
    rw [reading_eq_occurrences]
    exact firstMet_eraseDups _
  terminals := by
    rw [reading_eq_occurrences]
    exact firstMet_eraseDups _

end Gathered

end Grammar

/-! ### Building -/

/-- **Building.**  If a definition offends, every grammar asked for later is refused for the first
offence.  Otherwise there is a grammar that keeps what was defined, as long as anything was. -/
theorem Draft.grammar_defineAll (name : List UInt8) (rs : List (Symbol × List Production)) :
    ((∃ r ∈ rs, Offends r) → ∃ e, FirstOffence rs e ∧
      ∀ more, ((empty name).defineAll (rs ++ more)).grammar = .error e) ∧
    ((empty name).defineAll []).grammar = .error .empty ∧
    (rs ≠ [] → (∀ r ∈ rs, ¬ Offends r) →
      ∃ g, ((empty name).defineAll rs).grammar = .ok g ∧ g.Keeps name rs) := by
  refine ⟨fun h => ?_, (gathers_empty name).grammar_nil, fun hne h => ?_⟩
  · obtain ⟨e, he⟩ := exists_firstOffence h
    exact ⟨e, he, grammar_of_firstOffence he⟩
  · have hgathers := (gathers_empty name).defineAll h
    obtain ⟨g, hg, hname, hdefinitions⟩ := hgathers.grammar hne
    exact ⟨g, hg, Grammar.keeps_of_gathered hname hdefinitions⟩

/-- Definitions of `S` and `A` in turn are put together nonterminal by nonterminal. -/
example :
    let S := Symbol.ofChar 'S'
    let A := Symbol.ofChar 'A'
    let d := (Draft.empty (Text.bytes "G")).defineAll
      [(S, [Symbol.word "Ab"]), (A, [Symbol.word "a"]), (S, [Symbol.word "c"]),
        (A, [Production.epsilon])]
    (d.grammar.toOption.map fun g => g.rules.map Rule.text) =
      some ["S → Ab", "S → c", "A → a", "A → ϵ"] := by
  decide +kernel

end Lookahead
