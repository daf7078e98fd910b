import StageTree.Pipeline.Stage

/-! Small pipelines to build on, and a reference pipeline with its source: two stages in containers,
and then a stage with three branches. -/

namespace StageTree

namespace Stage

def echo (name message : String) : Stage := { name, steps := [.single "echo" message] }

/-- A stage that has a parallel group and nothing else. -/
def fanOut (name : String) (branches : List Stage) : Stage := { name, parallel := some branches }

def withAgent (s : Stage) (agent : Agent) : Stage := { s with agent := some agent }

def withStep (s : Stage) (step : Step) : Stage := { s with steps := s.steps ++ [step] }

def withFailFast (s : Stage) (b : Bool) : Stage := { s with failFast := some b }

def withParallel (s : Stage) (branches : List Stage) : Stage := { s with parallel := some branches }

end Stage

namespace Pipeline

def onHost (stages : List Stage) : Pipeline := ⟨.none, stages⟩

def referenceSource : String := "\n".intercalate [
  "",
  "// Reference pipeline",
  "pipeline \x7b",
  "    agent none",
  "    stages \x7b",
  "        stage('Example Build') \x7b",
  "            agent \x7b docker 'maven:3.9.0-eclipse-temurin-11' \x7d",
  "            steps \x7b",
  "                echo 'Hello, Maven'",
  "                sh 'mvn --version'",
  "            \x7d",
  "        \x7d",
  "        stage('Example Test') \x7b",
  "            agent \x7b docker 'openjdk:8-jre' \x7d",
  "            steps \x7b",
  "                echo 'Hello, JDK'",
  "                sh 'java -version'",
  "            \x7d",
  "        \x7d",
  "        stage('Parallel Stage') \x7b",
  "            failFast true",
  "            parallel \x7b",
  "                stage('Branch A') \x7b",
  "                    steps \x7b",
  "                        echo \"On Branch A\"",
  "                    \x7d",
  "                \x7d",
  "                stage('Branch B') \x7b",
  "                    steps \x7b",
  "                        echo \"On Branch B\"",
  "                    \x7d",
  "                \x7d",
  "                stage('Branch C') \x7b",
  "                    steps \x7b",
  "                        echo \"On Branch C\"",
  "                    \x7d",
  "                \x7d",
  "            \x7d",
  "        \x7d",
  "    \x7d",
  "\x7d",
  ""]

def reference : Pipeline := onHost [
  (Stage.mk "Example Build" none [] none none)
    |>.withAgent (.container "maven:3.9.0-eclipse-temurin-11")
    |>.withStep (.single "echo" "Hello, Maven") |>.withStep (.single "sh" "mvn --version"),
  (Stage.mk "Example Test" none [] none none)
    |>.withAgent (.container "openjdk:8-jre")
    |>.withStep (.single "echo" "Hello, JDK") |>.withStep (.single "sh" "java -version"),
  (Stage.fanOut "Parallel Stage" [.echo "Branch A" "On Branch A", .echo "Branch B" "On Branch B",
    .echo "Branch C" "On Branch C"]).withFailFast true]

end Pipeline

end StageTree
