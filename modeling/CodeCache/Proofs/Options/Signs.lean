import CodeCache.Proofs.Options.Reading

/-!
# Numbers with a sign

The texts that are read are those of the language, which is wider in one point than it
is meant to be: a number may have a plus sign, and zeros behind it. Where no value but a
path holds that sign, the two languages are one.
-/

namespace CodeCache.Options

/-- There is a plus sign in the value of a token, which is no path. -/
def hasSign (token : String) : Bool :=
  match Split.cut? '=' token with
  | some (key, value) => !PathKey.all.any (·.name == key) && value.toList.contains '+'
  | none => false

variable {o : Options} {text : String}

theorem hasSign_setting {key : String} (h : '=' ∉ key.toList) (value : String) :
    hasSign (setting key value) =
      (!PathKey.all.any (·.name == key) && value.toList.contains '+') := by
  unfold hasSign
  rw [cut?_setting h]

theorem contains_plus_setting (key value : String) :
    (setting key value).toList.contains '+' =
      (key.toList.contains '+' || value.toList.contains '+') := by
  simp [setting]

theorem Numeral.contains_plus (m : Numeral) : m.text.toList.contains '+' = !m.isPlain := by
  rw [Bool.eq_iff_iff, List.contains_iff_mem, m.plus_mem_text_iff, Bool.not_eq_true']

theorem hasSign_text (t : Token) : hasSign t.text = !t.isPlain := by
  have hlevel : ∀ level : LogLevel, level.name.toList.contains '+' = false := by
    intro level
    cases level <;> decide
  have hgroup : ∀ group : LogGroup, group.name.toList.contains '+' = false := by
    intro group
    rw [Bool.eq_false_iff, ne_eq, List.contains_iff_mem]
    exact group.not_mem_name (by decide)
  cases t with
  | switch s => cases s <;> decide
  | path key p =>
      rw [Token.text, hasSign_setting (by cases key <;> decide)]
      cases key <;> rfl
  | log group level =>
      rw [Token.text, hasSign_setting (by decide), contains_plus_setting, hgroup, hlevel]
      rfl
  | more group level =>
      rw [Token.text, hasSign_setting (group.not_mem_name (by decide)), hlevel, Bool.and_false]
      rfl
  | revive choice =>
      rw [Token.text, hasSign_setting (by decide)]
      cases choice with
      | appointed version =>
          rw [Choice.text, contains_plus_setting, version.contains_plus]
          rfl
      | _ => rfl
  | policy p => cases p <;> rfl
  | number key n =>
      rw [Token.text, hasSign_setting (by cases key <;> decide), n.contains_plus]
      cases key <;> rfl
  | size n unit =>
      have hunit : (n.text ++ String.singleton unit.letter).toList.contains '+' = !n.isPlain := by
        rw [← n.contains_plus]
        cases unit <;> simp [SizeUnit.letter]
      rw [Token.text, hasSign_setting (by decide), hunit]
      rfl

theorem Spells.isPlain_iff {tokens : List Token} (h : Spells text tokens) :
    (∀ t ∈ tokens, t.isPlain = true) ↔
      ∀ token ∈ Split.fields ',' text, hasSign token = false := by
  rw [h.fields_eq, List.forall_mem_map]
  simp only [hasSign_text, Bool.not_eq_false']

theorem denotes_plain_iff :
    (∃ tokens, Denotes text tokens o ∧ ∀ t ∈ tokens, t.isPlain = true) ↔
      parse text = .ok o ∧ ∀ token ∈ Split.fields ',' text, hasSign token = false := by
  rw [parse_eq_ok_iff]
  constructor
  · rintro ⟨tokens, hdenotes, hplain⟩
    exact ⟨⟨tokens, hdenotes⟩, hdenotes.1.isPlain_iff.mp hplain⟩
  · rintro ⟨⟨tokens, hdenotes⟩, hsign⟩
    exact ⟨tokens, hdenotes, hdenotes.1.isPlain_iff.mpr hsign⟩

/-- A text gives options exactly if it consists of tokens that stand for them. All numbers
of the tokens can be in digits only exactly if there is no sign. -/
theorem parse_reads_language (text : String) (o : Options) :
    (parse text = .ok o ↔ ∃ tokens, Denotes text tokens o) ∧
      ((∃ tokens, Denotes text tokens o ∧ ∀ t ∈ tokens, t.isPlain = true) ↔
        parse text = .ok o ∧ ∀ token ∈ Split.fields ',' text, hasSign token = false) :=
  ⟨parse_eq_ok_iff, denotes_plain_iff⟩

/-- A zero may stand behind the sign, as in no number of digits only. -/
theorem parse_reads_sign :
    parse "percent=+05" = .ok { percent := 5 } ∧
      ∀ o, ¬ ∃ tokens, Denotes "percent=+05" tokens o ∧ ∀ t ∈ tokens, t.isPlain = true := by
  refine ⟨eq_ok_of_valueWith (by decide +kernel), ?_⟩
  intro o hplain
  have hsign := (denotes_plain_iff.mp hplain).2 "percent=+05" (by decide +kernel)
  cases hsign

end CodeCache.Options
