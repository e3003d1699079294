import Recurrence.Proofs.Key.Place

/-!
# Arguments of one type

A canonical text leaves out much that the type of an argument tells: the names of structures, how
wide a number is, whether a list is a tuple. What it must not leave out is which value of the type
was meant. There is one place where it does: an option says nothing of its own, so where the value
in it may be written `null`, nothing and that value look alike. Options of units and options of
options are such types.

Where no such option occurs, the values of a type are told apart by their keys. The proof is an
induction over the parts of one of two values with the same normal form: the type says of which
form the other one is.
-/

namespace Recurrence

open Canonical NormalForm Argument

variable {ι : Type} {decl : ι → Declaration ι}

/-! ## Lists -/

theorem Argument.normalItems_eq_map (items : List Argument) :
    normalItems items = items.map normal := by
  induction items with
  | nil => rfl
  | cons a items ih => rw [normalItems, ih, List.map_cons]

/-- What it means that one value of a type is told apart from the others. -/
def Apart (decl : ι → Declaration ι) (t : Shape ι) (v : Argument) : Prop :=
  ∀ w, Has decl t w → v.normal.Same w.normal → v = w

theorem eq_of_same_items {t : Shape ι} {items items' : List Argument}
    (h : ∀ a ∈ items, Apart decl t a) (h' : ∀ a ∈ items', Has decl t a)
    (hsame : List.Forall₂ Same (normalItems items) (normalItems items')) : items = items' := by
  rw [normalItems_eq_map, normalItems_eq_map, List.forall₂_map_left_iff,
    List.forall₂_map_right_iff] at hsame
  induction hsame with
  | nil => rfl
  | cons hab _ ih =>
    obtain ⟨ha, has⟩ := List.forall_mem_cons.mp h
    obtain ⟨hb, hbs⟩ := List.forall_mem_cons.mp h'
    rw [ha _ hb hab, ih has hbs]

theorem eq_of_same_tuple {ts : List (Shape ι)} {items items' : List Argument}
    (h : List.Forall₂ (Apart decl) ts items) (h' : List.Forall₂ (Has decl) ts items')
    (hsame : List.Forall₂ Same (normalItems items) (normalItems items')) : items = items' := by
  rw [normalItems_eq_map, normalItems_eq_map, List.forall₂_map_left_iff,
    List.forall₂_map_right_iff] at hsame
  induction hsame generalizing ts with
  | nil => rfl
  | cons hab _ ih =>
    cases h with
    | cons ha has =>
      cases h' with
      | cons hb hbs => rw [ha _ hb hab, ih has hbs]

theorem forall₂_imp_of_mem {α β : Type} {R S : α → β → Prop} {as : List α} {bs : List β}
    (h : List.Forall₂ R as bs) (himp : ∀ a ∈ as, ∀ b, R a b → S a b) : List.Forall₂ S as bs := by
  have hboth := (List.forall₂_and_left (p := fun a => ∀ b, R a b → S a b) as bs).mpr ⟨himp, h⟩
  exact hboth.imp fun a b hab => hab.1 b hab.2

/-! ## Maps and fields -/

theorem Argument.normalFields_eq_map (es : List (String × Argument)) :
    normalFields (fieldsOf es) = es.map fun e => (.text e.1, e.2.normal) := by
  induction es with
  | nil => rfl
  | cons e es ih => rw [fieldsOf_cons, normalFields, ih, List.map_cons]

theorem Argument.normal_ofTexts (es : List (String × Argument)) :
    (ofTexts es).normal = .map (normalFields (fieldsOf es)) := by
  rw [ofTexts, ofEntries, normal]
  congr 1
  induction es with
  | nil => rfl
  | cons e es ih =>
    rw [List.map_cons, List.flatMap_cons, fieldsOf_cons, normalFields, ← ih]
    rfl

theorem NormalForm.Same.text_eq {s t : String} (h : (NormalForm.text s).Same (.text t)) :
    s = t := by
  cases h
  rfl

/-- Entries that are the same up to their order are entries in another order, if values with the
same name and the same normal form are equal. -/
theorem perm_of_same_entries {es fs : List (String × Argument)}
    (hvalues : ∀ e ∈ es, ∀ f ∈ fs, e.1 = f.1 → e.2.normal.Same f.2.normal → e.2 = f.2)
    (hsame : (NormalForm.map (normalFields (fieldsOf es))).Same
      (.map (normalFields (fieldsOf fs)))) : es.Perm fs := by
  rw [normalFields_eq_map, normalFields_eq_map] at hsame
  cases hsame with
  | map h =>
    rw [← Multiset.map_coe, ← Multiset.map_coe, Multiset.rel_map] at h
    have hequal : Multiset.Rel Eq (es : Multiset (String × Argument)) fs := by
      refine h.mono fun e he f hf hentry => ?_
      obtain ⟨hkey, hvalue⟩ := hentry
      exact Prod.ext hkey.text_eq (hvalues e he f hf hkey.text_eq hvalue)
    rw [Multiset.rel_eq, Multiset.coe_eq_coe] at hequal
    exact hequal

/-- Entries in another order under the same names are the same entries. -/
theorem eq_of_perm_of_names {es fs : List (String × Argument)} (h : es.Perm fs)
    (hnames : es.map Prod.fst = fs.map Prod.fst) (hnodup : (es.map Prod.fst).Nodup) : es = fs := by
  induction es generalizing fs with
  | nil => exact h.nil_eq
  | cons e es ih =>
    cases fs with
    | nil => exact absurd h.symm (List.not_perm_nil_cons _ _)
    | cons f fs =>
      rw [List.map_cons, List.map_cons, List.cons.injEq] at hnames
      rw [List.map_cons, List.nodup_cons] at hnodup
      obtain ⟨hname, hrest⟩ := hnames
      have hef : e = f := by
        rcases List.mem_cons.mp (h.subset List.mem_cons_self) with heq | hmem
        · exact heq
        · exact absurd (List.mem_map_of_mem hmem) (hrest ▸ hnodup.1)
      subst hef
      rw [ih ((List.perm_cons e).mp h) hrest hnodup.2]

/-- Fields have the names that are declared for them. -/
theorem names_of_fields {R : Shape ι → Argument → Prop} {ds : List (String × Shape ι)}
    {es : List (String × Argument)} (h : List.Forall₂ (Content.FieldOf R) ds es) :
    es.map Prod.fst = ds.map Prod.fst := by
  induction h with
  | nil => rfl
  | cons h _ ih =>
    cases h with
    | intro => rw [List.map_cons, List.map_cons, ih]

theorem eq_of_same_fields {ds : List (String × Shape ι)} (hds : (ds.map Prod.fst).Nodup)
    {es fs : List (String × Argument)} (h : List.Forall₂ (Content.FieldOf (Apart decl)) ds es)
    (h' : List.Forall₂ (Content.FieldOf (Has decl)) ds fs)
    (hsame : (NormalForm.map (normalFields (fieldsOf es))).Same
      (.map (normalFields (fieldsOf fs)))) : es = fs := by
  have hperm : es.Perm fs := by
    refine perm_of_same_entries (fun e he f hf hname hvalue => ?_) hsame
    obtain ⟨d, hd, hde⟩ := exists_mem_of_forall₂ h he
    obtain ⟨d', hd', hdf⟩ := exists_mem_of_forall₂ h' hf
    cases hde with
    | intro hapart =>
      cases hdf with
      | intro hhas =>
        -- one name is declared with one type
        cases List.inj_on_of_nodup_map hds hd hd' hname
        exact hapart _ hhas hvalue
  refine eq_of_perm_of_names hperm ?_ ?_
  · rw [names_of_fields h, names_of_fields h']
  · rw [names_of_fields h]
    exact hds

theorem eq_of_same_map {t : Shape ι} {es fs : List (String × Argument)}
    (hes : (es.map Prod.fst).Pairwise (· < ·)) (hfs : (fs.map Prod.fst).Pairwise (· < ·))
    (h : ∀ e ∈ es, Apart decl t e.2) (h' : ∀ e ∈ fs, Has decl t e.2)
    (hsame : (ofTexts es).normal.Same (ofTexts fs).normal) : es = fs := by
  rw [normal_ofTexts, normal_ofTexts] at hsame
  have hperm : es.Perm fs :=
    perm_of_same_entries (fun e he f hf _ hvalue => h e he _ (h' f hf) hvalue) hsame
  rw [List.pairwise_map] at hes hfs
  -- there is only one order in which the names increase
  exact hperm.eq_of_pairwise (fun e f _ _ hef hfe => absurd hfe (String.lt_asymm hef)) hes hfs

/-! ## Variants -/

theorem NormalForm.Same.of_single {k k' a a' : NormalForm}
    (h : (NormalForm.map [(k, a)]).Same (.map [(k', a')])) : k.Same k' ∧ a.Same a' := by
  cases h with
  | map h =>
    rw [← Multiset.cons_coe, Multiset.rel_cons_left] at h
    obtain ⟨f, fs, hentry, -, hf⟩ := h
    rw [Multiset.coe_singleton, Multiset.singleton_eq_cons_iff] at hf
    obtain ⟨rfl, -⟩ := hf
    cases hentry with
    | intro hkey hvalue => exact ⟨hkey, hvalue⟩

theorem Content.normal_variant_unit (variant : String) :
    (Content.unit.variant variant).normal = .text variant := rfl

theorem Content.normal_variant_of_ne {c : Content} (h : c ≠ .unit) (variant : String) :
    (c.variant variant).normal = .map [(.text variant, c.normal)] := by
  cases c with
  | unit => exact absurd rfl h
  | newtype | tuple | fields => rfl

/-- Variants that are the same have the same name and the same content. -/
theorem Content.same_variant {variant variant' : String} {c c' : Content}
    (hsame : (c.variant variant).normal.Same (c'.variant variant').normal) :
    variant = variant' ∧ c.normal.Same c'.normal := by
  by_cases hc : c = .unit <;> by_cases hc' : c' = .unit
  · subst hc hc'
    exact ⟨hsame.text_eq, .scalar .null⟩
  · rw [hc, normal_variant_unit, normal_variant_of_ne hc'] at hsame
    cases hsame
  · rw [hc', normal_variant_unit, normal_variant_of_ne hc] at hsame
    cases hsame
  · rw [normal_variant_of_ne hc, normal_variant_of_ne hc'] at hsame
    exact ⟨hsame.of_single.1.text_eq, hsame.of_single.2⟩

/-! ## Values of a type -/

/-- What a body says of two contents is enough to tell them apart. -/
theorem Content.Of.eq_of_same {body : Body ι} {c c' : Content} (hdistinct : body.Distinct)
    (h : Content.Of (Apart decl) body c) (h' : Content.Of (Has decl) body c')
    (hsame : c.normal.Same c'.normal) : c = c' := by
  cases h with
  | unit =>
    cases h'
    rfl
  | newtype h =>
    cases h' with
    | newtype h' => rw [h _ h' hsame]
  | tuple h =>
    cases h' with
    | tuple h' =>
      cases hsame with
      | list hsame => rw [eq_of_same_tuple h h' hsame]
  | @fields ds es h =>
    cases h' with
    | @fields _ fs h' =>
      rw [eq_of_same_fields hdistinct h h' hsame]

/-- No option occurs in the type that stands before a type of which a value is written `null`. -/
def Clear (decl : ι → Declaration ι) (t : Shape ι) : Prop :=
  ∀ u, Nullable decl u → ¬ Occurs decl (.option u) t

theorem Clear.part {t u : Shape ι} (h : Clear decl t) (hpart : u ∈ t.parts decl) : Clear decl u :=
  fun s hs hoccurs => h s hs (hoccurs.tail hpart)

theorem Content.Of.imp {R S : Shape ι → Argument → Prop} {body : Body ι} {c : Content}
    (h : Content.Of R body c) (himp : ∀ t ∈ body.parts, ∀ a, R t a → S t a) :
    Content.Of S body c := by
  cases h with
  | unit => exact .unit
  | newtype h => exact .newtype (himp _ List.mem_cons_self _ h)
  | tuple h => exact .tuple (forall₂_imp_of_mem h himp)
  | fields h =>
    refine .fields (forall₂_imp_of_mem h fun d hd e hde => ?_)
    cases hde with
    | intro h => exact .intro (himp _ (List.mem_map_of_mem hd) _ h)

theorem NormalForm.Same.eq_scalar_iff {a b : NormalForm} (h : a.Same b) (s : Scalar) :
    a = .scalar s ↔ b = .scalar s := by
  cases h with
  | scalar => exact Iff.rfl
  | text | list | map => exact iff_of_false nofun nofun

/-- **A value of a type in which no such option occurs is told apart from all others.** -/
theorem Has.apart (hdistinct : ∀ i, (decl i).Distinct) {t : Shape ι} {v : Argument}
    (hv : Has decl t v) (ht : Clear decl t) : Apart decl t v := by
  induction hv using Has.induct with
  | unit =>
    intro w hw _
    cases hw
    rfl
  | bool | int | text =>
    intro w hw hsame
    cases hw
    cases hsame
    rfl
  | none t =>
    intro w hw hsame
    cases hw with
    | none => rfl
    | some hb =>
      -- only here something could be lost, and the type is clear of it
      exact absurd .refl (ht t (hb.nullable ((hsame.eq_scalar_iff .null).mp rfl)))
  | @some t a ha ih =>
    intro w hw hsame
    cases hw with
    | none =>
      exact absurd .refl (ht t (ha.nullable ((hsame.eq_scalar_iff .null).mpr rfl)))
    | some hb => rw [ih (ht.part List.mem_cons_self) _ hb hsame]
  | vec h ih =>
    intro w hw hsame
    cases hw with
    | vec h' =>
      cases hsame with
      | list hsame =>
        rw [eq_of_same_items (fun a ha => ih a ha (ht.part List.mem_cons_self)) h' hsame]
  | tuple h ih =>
    intro w hw hsame
    cases hw with
    | tuple h' =>
      cases hsame with
      | list hsame =>
        have hapart := forall₂_imp_of_mem ih fun t hmem a ⟨_, ha⟩ => ha (ht.part hmem)
        rw [eq_of_same_tuple hapart h' hsame]
  | map hes h ih =>
    intro w hw hsame
    cases hw with
    | map hfs h' =>
      rw [eq_of_same_map hes hfs (fun e he => ih e he (ht.part List.mem_cons_self)) h' hsame]
  | @struct i name body c hi _ ih =>
    intro w hw hsame
    cases hw with
    | struct hi' h' =>
      cases hi.symm.trans hi'
      rw [Content.normal_struct, Content.normal_struct] at hsame
      have hbody : body.Distinct := by simpa [Declaration.Distinct, hi] using hdistinct i
      have hparts : Content.Of (Apart decl) body c :=
        ih.imp fun t hmem a ⟨_, ha⟩ => ha (ht.part (by rwa [Shape.parts, hi]))
      rw [hparts.eq_of_same hbody h' hsame]
    | enum hi' => cases hi.symm.trans hi'
  | @enum i variants variant body c hi hmem _ ih =>
    intro w hw hsame
    cases hw with
    | struct hi' => cases hi.symm.trans hi'
    | enum hi' hmem' h' =>
      cases hi.symm.trans hi'
      obtain ⟨hnames, hbodies⟩ : (variants.map Prod.fst).Nodup ∧ ∀ v ∈ variants, v.2.Distinct := by
        simpa [Declaration.Distinct, hi] using hdistinct i
      obtain ⟨hname, hcontent⟩ := Content.same_variant hsame
      -- variants of one name are the same variant, with one body
      cases List.inj_on_of_nodup_map hnames hmem hmem' hname
      have hparts : Content.Of (Apart decl) body c :=
        ih.imp fun t ht' a ⟨_, ha⟩ =>
          ha (ht.part (by rw [Shape.parts, hi]; exact List.mem_flatMap_of_mem hmem ht'))
      rw [hparts.eq_of_same (hbodies _ hmem) h' hcontent]

/-! ## Keys -/

/-- What comes out like an argument that has a text has the same key. -/
theorem Key.ofArgument_of_alike {v a : Argument} (hv : ∃ s, v.encode = .ok s)
    (h : Alike Eq v.encode a.encode) :
    ∃ k, Key.ofArgument v = .ok k ∧ Key.ofArgument a = .ok k := by
  obtain ⟨s, hs⟩ := hv
  rw [ofArgument, ofArgument]
  rw [hs] at h ⊢
  generalize a.encode = x at h ⊢
  cases h with
  | ok heq =>
    subst heq
    exact ⟨_, rfl, rfl⟩

theorem Key.same_normal_of_ofArgument_eq {v w : Argument} {k : Key} (hv : Key.ofArgument v = .ok k)
    (hw : Key.ofArgument w = .ok k) : v.normal.Same w.normal := by
  obtain ⟨s, hs, hk⟩ := bind_eq_ok.mp hv
  obtain ⟨s', hs', hk'⟩ := bind_eq_ok.mp hw
  have htexts : s = s' :=
    String.ofList_injective (Key.canonical.inj (Except.ok.inj (hk.trans hk'.symm)))
  rw [NormalForm.same_iff_chars_eq Format.json_readable, ← v.encode_eq_chars hs,
    ← w.encode_eq_chars hs', htexts]

/--
**The values of a type have different keys unless an option in it may hold what is written
`null`.**

Where no such option occurs in a type, at any depth, each value has a key, in whatever order the
entries of its maps are handed over, and two values have the same key only if they are one value.
Where such an option occurs, two different values have the same key, if only the types that occur
have values at all: around a place for the option, nothing and what is written `null` look alike.
-/
theorem Key.ofArgument_eq_iff_eq (hdistinct : ∀ i, (decl i).Distinct) (t : Shape ι) :
    (Clear decl t → ∀ v w, Has decl t v → Has decl t w → ∀ a b, Reordered v a → Reordered w b →
      ∃ k l, Key.ofArgument a = .ok k ∧ Key.ofArgument b = .ok l ∧ (k = l ↔ v = w))
    ∧ (¬ Clear decl t → (∀ u, Occurs decl u t → ∃ v, Has decl u v) →
      ∃ v w, Has decl t v ∧ Has decl t w ∧ v ≠ w
        ∧ ∃ k, Key.ofArgument v = .ok k ∧ Key.ofArgument w = .ok k) := by
  constructor
  · intro ht v w hv hw a b hva hwb
    obtain ⟨k, hk, ha⟩ := Key.ofArgument_of_alike hv.encode_ok hva.encode_alike
    obtain ⟨l, hl, hb⟩ := Key.ofArgument_of_alike hw.encode_ok hwb.encode_alike
    refine ⟨k, l, ha, hb, ?_, ?_⟩
    · rintro rfl
      exact hv.apart hdistinct ht w hw (Key.same_normal_of_ofArgument_eq hk hl)
    · rintro rfl
      exact Except.ok.inj (hk.symm.trans hl)
  · intro ht hvalues
    obtain ⟨u, hu, hoccurs⟩ : ∃ u, Nullable decl u ∧ Occurs decl (.option u) t := by
      simpa [Clear] using ht
    obtain ⟨v, hv, hnull⟩ := hu.exists_null
    obtain ⟨p⟩ := Place.exists_of_occurs hoccurs hvalues
    have halike : Alike Eq Argument.absent.encode (Argument.present v).encode := by
      rw [encode, encode, hnull]
      exact .ok rfl
    have habsent : Has decl t (p.fill .absent) := p.has _ (.none u)
    have hne : Argument.absent ≠ .present v := by simp
    exact ⟨_, _, habsent, p.has _ (.some hv), p.injective.ne hne,
      Key.ofArgument_of_alike habsent.encode_ok (p.alike _ _ halike)⟩

/-- Nothing, and something that is missing. -/
example : Key.ofArgument .absent = Key.ofArgument (.present .absent) := rfl

/-- A chain of links, with an item at each of them or without one. -/
def chain : Unit → Declaration Unit := fun _ =>
  .struct "Link" (.fields [("item", .option (.int true 32)), ("marks", .map .bool),
    ("next", .option (.named ()))])

def link (item : Argument) (marks : List (String × Argument)) (next : Argument) : Argument :=
  .struct "Link" [.mk "item" item, .mk "marks" (.ofTexts marks), .mk "next" next]

theorem has_link {item next : Argument} {marks : List (String × Argument)}
    (hitem : Has chain (.option (.int true 32)) item)
    (hsorted : (marks.map Prod.fst).Pairwise (· < ·)) (hmarks : ∀ m ∈ marks, Has chain .bool m.2)
    (hnext : Has chain (.option (.named ())) next) :
    Has chain (.named ()) (link item marks next) :=
  .struct rfl (.fields (.cons (.intro hitem) (.cons (.intro (.map hsorted hmarks))
    (.cons (.intro hnext) .nil))))

theorem clear_chain : Clear chain (.named ()) := by
  intro u hu hoccurs
  have hmem : .option u ∈ ([.named (), .option (.int true 32), .int true 32, .map .bool, .bool,
      .option (.named ())] : List (Shape Unit)) :=
    hoccurs.mem _ (by simp [Shape.parts, chain, Declaration.parts, Body.parts]) List.mem_cons_self
  have hoption : u = .int true 32 ∨ u = .named () := by simpa using hmem
  rcases hoption with rfl | rfl
  · cases hu
  · cases hu with
    | unitStruct h => cases h
    | newtypeStruct h => cases h

open Argument in
/-- Chains whose second links hold an item have other keys than those whose first ones do, however
their marks are handed over. Of texts that may be missing there may be none, or a missing one. -/
theorem Key.ofArgument_eq_iff_eq_chain :
    (∃ k l, Key.ofArgument (link .absent [("b", .bool true), ("a", .bool false)]
            (.present (link (.present (.int 1)) [] .absent))) = .ok k
        ∧ Key.ofArgument (link (.present (.int 1)) [("a", .bool false), ("b", .bool true)]
            (.present (link .absent [] .absent))) = .ok l ∧ k ≠ l)
    ∧ ∃ v w, Has chain (.vec (.option (.option .text))) v
      ∧ Has chain (.vec (.option (.option .text))) w ∧ v ≠ w
      ∧ ∃ k, Key.ofArgument v = .ok k ∧ Key.ofArgument w = .ok k := by
  have hdistinct : ∀ i, (chain i).Distinct := fun _ => by
    simp [chain, Declaration.Distinct, Body.Distinct]
  have hone : Has chain (.option (.int true 32)) (.present (.int 1)) :=
    .some (.int (by simp [InWord]))
  have hmarks : ∀ m ∈ [("a", Argument.bool false), ("b", .bool true)], Has chain .bool m.2 := by
    simp [Has.bool]
  constructor
  · have hlast : Has chain (.option (.named ())) (.present (link (.present (.int 1)) [] .absent)) :=
      .some (has_link hone .nil (List.forall_mem_nil _) (.none _))
    have hlast' : Has chain (.option (.named ())) (.present (link .absent [] .absent)) :=
      .some (has_link (.none _) .nil (List.forall_mem_nil _) (.none _))
    have hmoved : Reordered
        (link .absent [("a", .bool false), ("b", .bool true)]
          (.present (link (.present (.int 1)) [] .absent)))
        (link .absent [("b", .bool true), ("a", .bool false)]
          (.present (link (.present (.int 1)) [] .absent))) :=
      .single (.inField "Link" "marks" [.mk "item" .absent] _ (reorders_ofEntries (.swap _ _ _)))
    obtain ⟨k, l, hk, hl, hiff⟩ := (Key.ofArgument_eq_iff_eq hdistinct _).1 clear_chain _ _
      (has_link (.none _) (by decide) hmarks hlast) (has_link hone (by decide) hmarks hlast') _ _
      hmoved .refl
    refine ⟨k, l, hk, hl, fun h => ?_⟩
    cases hiff.mp h
  · refine (Key.ofArgument_eq_iff_eq hdistinct _).2 (fun hclear => ?_) fun u hu => ?_
    · exact hclear (.option .text) (.option _) (.single List.mem_cons_self)
    · have hmem : u ∈ ([.vec (.option (.option .text)), .option (.option .text), .option .text,
          .text] : List (Shape Unit)) :=
        hu.mem _ (by simp [Shape.parts]) List.mem_cons_self
      simp only [List.mem_cons, List.not_mem_nil, or_false] at hmem
      rcases hmem with rfl | rfl | rfl | rfl
      · exact ⟨.seq [], .vec (List.forall_mem_nil _)⟩
      · exact ⟨_, .none _⟩
      · exact ⟨_, .none _⟩
      · exact ⟨_, .text ""⟩

end Recurrence
