/-
  The texts that explain the command line.
-/
namespace GaussianIntegrals.CommandLine

/-- The name of the program. -/
def programName : String := "intgen"

/-- How the program is called. -/
def usageText : String :=
  "usage: intgen [-h] [--output-dir OUTPUT_DIR] [--config CONFIG]\n" ++
  "              [--workers WORKERS] [--no-boys]\n" ++
  "              [families ...]\n"

/-- What the arguments mean. -/
def helpText : String :=
  usageText ++
  "\n" ++
  "Generate Fortran source for nuclear attraction, kinetic energy and momentum\n" ++
  "integrals.\n" ++
  "\n" ++
  "positional arguments:\n" ++
  "  families              Integral families to generate, any of ['nuclear',\n" ++
  "                        'kinetic', 'momentum'] (default: all)\n" ++
  "\n" ++
  "options:\n" ++
  "  -h, --help            show this help message and exit\n" ++
  "  --output-dir OUTPUT_DIR\n" ++
  "                        Directory for the generated files\n" ++
  "  --config CONFIG       Path to a key = value configuration file\n" ++
  "  --workers WORKERS     Processes used per family\n" ++
  "  --no-boys             Skip the gamma and approx files\n"

end GaussianIntegrals.CommandLine
