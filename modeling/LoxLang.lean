import LoxLang.Main
import LoxLang.Proofs.RoundTrip
import LoxLang.Proofs.Gate
import LoxLang.Proofs.Initializers
import LoxLang.Proofs.Places
import LoxLang.Proofs.Statics
import LoxLang.Proofs.Respacing
import LoxLang.Proofs.Grammar.Slots
import LoxLang.Proofs.Stranding
import LoxLang.Proofs.Legibility
import LoxLang.Proofs.Chains
import LoxLang.Proofs.Forests
import LoxLang.Proofs.FirstTokens
