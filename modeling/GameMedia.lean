import GameMedia.Main
import GameMedia.Proofs.Audio.Errors
import GameMedia.Proofs.Audio.Failures
import GameMedia.Proofs.Audio.Framing
import GameMedia.Proofs.Audio.Parts
import GameMedia.Proofs.Audio.Separation
import GameMedia.Proofs.Shader.Arithmetic
import GameMedia.Proofs.Shader.Directives
import GameMedia.Proofs.Shader.Headers
import GameMedia.Proofs.Shader.Hygiene
import GameMedia.Proofs.Shader.Layout
import GameMedia.Proofs.Shader.Levels
import GameMedia.Proofs.Shader.Matrices
import GameMedia.Proofs.Shader.NumberTokens
import GameMedia.Proofs.Shader.Numerals
import GameMedia.Proofs.Shader.Precedence
import GameMedia.Proofs.Shader.Simultaneity
import GameMedia.Proofs.Shader.Spelling
import GameMedia.Proofs.Shader.Stages
import GameMedia.Proofs.Shader.TwoPhase
import GameMedia.Proofs.Shader.Uniforms
import GameMedia.Proofs.Shader.Wrapping
