import Throbac.Proofs.Grammar.Budget
import Throbac.Proofs.Parsing.Frames
import Throbac.Proofs.Parsing.Steps

/-!
# Phrases that grow

While a parser follows the parts of a rule, trees are added to the innermost phrase. As long as the
log stays empty they are derived, they make up what the parts stand for, and their leaves are the
tokens passed on the tape. A part that starts with the present token leaves less effort behind.
-/
namespace Throbac

namespace Frame

/-- The phrase got more parts and maybe an operator; what it is has not changed. -/
structure Grows (cs : List ParseTree) (o : Option Token) (f f' : Frame) : Prop where
  kind : f'.info.kind = f.info.kind
  invoking : f'.info.invoking = f.info.invoking
  failure : f'.info.failure = f.info.failure
  operator : f'.info.operator = o.or f.info.operator
  parts : f'.parts = cs.reverse ++ f.parts
  attached : f'.attached = f.attached

variable {f f' f'' : Frame} {cs ds : List ParseTree} {o o' : Option Token}

theorem Grows.refl (f : Frame) : Grows [] none f f := ⟨rfl, rfl, rfl, rfl, rfl, rfl⟩

theorem Grows.trans (h : Grows cs o f f') (h' : Grows ds o' f' f'') :
    Grows (cs ++ ds) (o'.or o) f f'' where
  kind := h'.kind.trans h.kind
  invoking := h'.invoking.trans h.invoking
  failure := h'.failure.trans h.failure
  operator := by rw [h'.operator, h.operator, Option.or_assoc]
  parts := by rw [h'.parts, h.parts, List.reverse_append, List.append_assoc]
  attached := h'.attached.trans h.attached

theorem Grows.add (f : Frame) (c : ParseTree) : Grows [c] none f (f.add c) :=
  ⟨rfl, rfl, rfl, rfl, rfl, rfl⟩

end Frame

namespace Parser

variable {R : CacheCondition} {T : Tape} {p p' p'' : Parser}

/-- Trees for the items were read from the tape and joined the innermost phrase. -/
def Added (T : Tape) (is : List Item) (p p' : Parser) : Prop :=
  ∃ cs o f f' rest, p.stack = f :: rest ∧ p'.stack = f' :: rest ∧ f.Grows cs o f' ∧
    Consists is cs o ∧ (∀ c ∈ cs, Derived c) ∧
    T.Walk p.place (cs.flatMap ParseTree.leaves) p'.place

namespace Added

variable {is js : List Item}

theorem nil (hs : p'.stack = p.stack) (hne : p.stack ≠ []) (hp : p'.place = p.place) :
    Added T [] p p' := by
  obtain ⟨f, rest, hf⟩ := List.exists_cons_of_ne_nil hne
  exact ⟨[], none, f, f, rest, hf, hs.trans hf, .refl f, .nil, by simp, by rw [hp]; exact .nil⟩

theorem append (h : Added T is p p') (h' : Added T js p' p'') : Added T (is ++ js) p p'' := by
  obtain ⟨cs, o, f, f', rest, hs, hs', hgrows, hconsists, hderived, hwalk⟩ := h
  obtain ⟨ds, o', g, g', rest', ht, ht', hgrows', hconsists', hderived', hwalk'⟩ := h'
  obtain ⟨rfl, rfl⟩ := List.cons.inj (hs'.symm.trans ht)
  refine ⟨cs ++ ds, o'.or o, f, g', rest, hs, ht', hgrows.trans hgrows', hconsists.append hconsists',
    List.forall_mem_append.2 ⟨hderived, hderived'⟩, ?_⟩
  rw [List.flatMap_append]
  exact hwalk.append hwalk'

theorem mono (h : Added T is p p') (hi : ∀ cs o, Consists is cs o → Consists js cs o) :
    Added T js p p' := by
  obtain ⟨cs, o, f, f', rest, hs, hs', hgrows, hconsists, hderived, hwalk⟩ := h
  exact ⟨cs, o, f, f', rest, hs, hs', hgrows, hi cs o hconsists, hderived, hwalk⟩

theorem after (h : Added T is p' p'') (hs : p'.stack = p.stack) (hp : p'.place = p.place) :
    Added T is p p'' := by
  unfold Added at h ⊢
  rwa [hs, hp] at h

end Added

/-- Work on parts of a rule: trees for the items are added as long as the log is empty, and where
haste is asked for, less effort is left. -/
structure Advance (R : CacheCondition) (T : Tape) (is : List Item) (haste : Prop) (p p' : Parser) :
    Prop extends Onward R T p p' where
  added : p'.core.reports = #[] → Added T is p p'
  less : haste → p'.effort T < p.effort T

namespace Advance

variable {is js : List Item} {a b : Prop}

theorem nil (h : Good R T p) : Advance R T [] False p p :=
  ⟨.refl h, fun _ => .nil rfl h.stack_ne_nil rfl, fun hf => hf.elim⟩

theorem append (h : Advance R T is a p p') (h' : Advance R T js b p' p'') :
    Advance R T (is ++ js) (a ∨ b) p p'' where
  toOnward := h.toOnward.trans h'.toOnward
  added hc := (h.added (h'.toOnward.clean hc)).append (h'.added hc)
  less := by
    have he := h.effort
    have he' := h'.effort
    rintro (ha | hb)
    · exact Nat.lt_of_le_of_lt he' (h.less ha)
    · exact Nat.lt_of_lt_of_le (h'.less hb) he

theorem mono (h : Advance R T is a p p') (hi : ∀ cs o, Consists is cs o → Consists js cs o)
    (hb : b → a) : Advance R T js b p p' :=
  ⟨h.toOnward, fun hc => (h.added hc).mono hi, fun hb' => h.less (hb hb')⟩

theorem after (h : Advance R T is a p' p'') (ho : Onward R T p p')
    (hk : p'.core.reports = #[] → p'.stack = p.stack ∧ p'.place = p.place) (hb : b → a) :
    Advance R T is b p p'' where
  toOnward := ho.trans h.toOnward
  added hc :=
    have hk := hk (h.toOnward.clean hc)
    (h.added hc).after hk.1 hk.2
  less hb' := Nat.lt_of_lt_of_le (h.less (hb hb')) ho.effort

end Advance

/-- Where work can be broken off, if it may be at all: nobody listens to the parser. -/
def Broken (B : Prop) (p : Parser) : Prop := B ∧ p.listeners = none

/-- A way to decide between alternatives. It gives the number of an alternative, and unless work may
be broken off, one that can start with the present token. -/
def Chooses (R : CacheCondition) (T : Tape) (B : Prop) (choose : Int → ParseM Int) : Prop :=
  ∀ (d : Int) (rule : Nat) (p : Parser), (d, rule) ∈ predictedDecisions → Good R T p →
    p.callers.head?.map Call.rule = some (rule : Int) →
    Ends (Broken B) (choose d) p
      (fun alt p' => Still R T p p' ∧ (1 ≤ alt ∧ alt ≤ Grammar.parserNetwork.width d) ∧
        (¬ B → ∀ xs, Grammar.opening d alt = some xs → (T.token p.place).type ∈ xs))
      (Failed R T p)

end Parser

end Throbac
